/-
`get_verify_code` of the verification server (src/verify_server/server.js,
redis.js) and the gate server's check of a code (src/gateserver/logic_system.cc),
when redis answers and nothing expires. A call is suspended at each `await`; an
event is one redis command or one mail, and what the call then does until its
next `await`.

As long as no `SET` takes the place of another code, what redis has stays
(`step_grows`), and with it every code that was mailed.
-/
import Learncc.Lib.Run

namespace Learncc.VerifyServer

/-- const.js. -/
def codePrefix : String := "code_"

/-- inc/gateserver/comm.h. -/
def CODEPREFIX : String := "code_"

/-- What a call waits for. -/
inductive Phase
  | get
  | set (code : String)
  | expire (code : String)
  | mail (code : String)
  | done
deriving Repr, DecidableEq

structure Call where
  email : String
  phase : Phase
deriving Repr, DecidableEq

/-- `mailed` are the codes that went out, with the address. -/
structure Server where
  redis : String → Option String
  calls : List Call
  mailed : List (String × String)

inductive Event
  | call (email : String)
  | get (i : ℕ) (uuid : String)
  | set (i : ℕ)
  | expire (i : ℕ)
  | mail (i : ℕ)

/-- The first four characters of a uuid. -/
def uniqueId (uuid : String) : String := if 4 < uuid.length then String.ofList (uuid.toList.take 4) else uuid

namespace Server

/-- The `i`-th call goes on to its next `await`. -/
def goOn (s : Server) (i : ℕ) (email : String) (phase : Phase) : Server :=
  { s with calls := s.calls.set i ⟨email, phase⟩ }

def step (s : Server) : Event → Option Server
  | .call email => some { s with calls := s.calls ++ [⟨email, .get⟩] }
  | .get i uuid =>
    match s.calls[i]? with
    | some ⟨email, .get⟩ =>
      match s.redis (codePrefix ++ email) with
      | none => some (s.goOn i email (.set (uniqueId uuid)))
      | some code => some (s.goOn i email (.mail code))
    | _ => none
  | .set i =>
    match s.calls[i]? with
    | some ⟨email, .set code⟩ =>
      some { s.goOn i email (.expire code) with
        redis := Function.update s.redis (codePrefix ++ email) (some code) }
    | _ => none
  | .expire i =>
    match s.calls[i]? with
    | some ⟨email, .expire code⟩ => some (s.goOn i email (.mail code))
    | _ => none
  | .mail i =>
    match s.calls[i]? with
    | some ⟨email, .mail code⟩ => some { s.goOn i email .done with mailed := (email, code) :: s.mailed }
    | _ => none

/-- Nobody has called yet; redis may have codes. -/
def init (redis : String → Option String) : Server := { redis, calls := [], mailed := [] }

/-- The check of `/user_register`: the code is there, and it is the user's. -/
def codeAccepted (s : Server) (email code : String) : Bool :=
  match s.redis (CODEPREFIX ++ email) with
  | none => false
  | some verifyCode => verifyCode = code

/-- A `SET` finds no other code. -/
def tidy (s : Server) : Event → Bool
  | .set i =>
    match s.calls[i]? with
    | some ⟨email, .set code⟩ => (s.redis (codePrefix ++ email)).all (· = code)
    | _ => true
  | _ => true

def Tidy (s : Server) (e : Event) : Prop := s.tidy e = true

instance (s : Server) (e : Event) : Decidable (s.Tidy e) := inferInstanceAs (Decidable (_ = true))

/-- The code of the call is what redis has, once the call has stored or read it. -/
def Holds (s : Server) (c : Call) : Prop :=
  ∀ code, c.phase = .expire code ∨ c.phase = .mail code → s.redis (codePrefix ++ c.email) = some code

structure Inv (s : Server) : Prop where
  calls : ∀ c ∈ s.calls, s.Holds c
  mailed : ∀ m ∈ s.mailed, s.redis (codePrefix ++ m.1) = some m.2

variable {s s' : Server} {e : Event}

/-- What redis has stays. -/
theorem step_grows (ht : s.Tidy e) (h : s.step e = some s') {key code : String} (hk : s.redis key = some code) :
    s'.redis key = some code := by
  cases e with
  | call email =>
    cases h
    exact hk
  | get i uuid =>
    simp only [step] at h
    split at h
    · split at h <;> cases h <;> exact hk
    · cases h
  | set i =>
    simp only [step] at h
    split at h
    · rename_i email code' hcall
      cases h
      by_cases hkey : key = codePrefix ++ email
      · subst hkey
        simp only [Tidy, tidy, hcall, hk, Option.all_some, decide_eq_true_eq] at ht
        rw [ht]
        exact Function.update_self _ _ _
      · exact (Function.update_of_ne hkey _ _).trans hk
    · cases h
  | expire i | mail i =>
    simp only [step] at h
    split at h
    · cases h
      exact hk
    · cases h

theorem Holds.grow {c : Call} (h : s.Holds c)
    (hgrow : ∀ key code, s.redis key = some code → s'.redis key = some code) :
    s'.Holds c := fun code hc => hgrow _ _ (h code hc)

/-- A call goes on, and what redis has stays. -/
theorem Inv.goOn {i : ℕ} {email : String} {phase : Phase} (h : s.Inv)
    (hgrow : ∀ key code, s.redis key = some code → s'.redis key = some code)
    (hcalls : s'.calls = s.calls.set i ⟨email, phase⟩) (hnew : s'.Holds ⟨email, phase⟩) :
    ∀ c ∈ s'.calls, s'.Holds c := by
  intro c hc
  rw [hcalls] at hc
  rcases List.mem_or_eq_of_mem_set hc with hc | rfl
  · exact (h.calls c hc).grow hgrow
  · exact hnew

theorem step_inv (h : s.Inv) (ht : s.Tidy e) (hs : s.step e = some s') : s'.Inv := by
  have hgrow : ∀ key code, s.redis key = some code → s'.redis key = some code := fun _ _ hk => step_grows ht hs hk
  have hmailed : ∀ m ∈ s.mailed, s'.redis (codePrefix ++ m.1) = some m.2 := fun m hm => hgrow _ _ (h.mailed m hm)
  cases e with
  | call email =>
    cases hs
    refine ⟨fun c hc => ?_, hmailed⟩
    rcases List.mem_append.1 hc with hc | hc
    · exact h.calls c hc
    · rw [List.mem_singleton.1 hc]
      exact fun code he => by rcases he with he | he <;> cases he
  | get i uuid =>
    simp only [step] at hs
    split at hs
    · rename_i email hcall
      split at hs
      · cases hs
        exact ⟨h.goOn hgrow rfl (fun code he => by rcases he with he | he <;> cases he), hmailed⟩
      · rename_i code hcode
        cases hs
        refine ⟨h.goOn hgrow rfl fun code' he => ?_, hmailed⟩
        rcases he with he | he <;> cases he
        exact hcode
    · cases hs
  | set i =>
    simp only [step] at hs
    split at hs
    · cases hs
      refine ⟨h.goOn hgrow rfl fun code' he => ?_, hmailed⟩
      rcases he with he | he <;> cases he
      exact Function.update_self _ _ _
    · cases hs
  | expire i =>
    simp only [step] at hs
    split at hs
    · rename_i email code hcall
      cases hs
      refine ⟨h.goOn hgrow rfl fun code' he => ?_, hmailed⟩
      rcases he with he | he <;> cases he
      exact h.calls _ (List.mem_of_getElem? hcall) code (.inl rfl)
    · cases hs
  | mail i =>
    simp only [step] at hs
    split at hs
    · rename_i email code hcall
      cases hs
      refine ⟨h.goOn hgrow rfl (fun code' he => by rcases he with he | he <;> cases he), fun m hm => ?_⟩
      rcases List.mem_cons.1 hm with rfl | hm
      · exact h.calls _ (List.mem_of_getElem? hcall) code (.inr rfl)
      · exact hmailed m hm
    · cases hs

/-- **Verification codes.** In a run in which no `SET` takes the place of another
code, every code that was mailed is the one stored, and the gate server accepts
it. -/
theorem mailed_accepted {redis : String → Option String} {events : List Event}
    (ht : Run.Along step Tidy (init redis) events) (h : Run.run step (init redis) events = some s) :
    ∀ m ∈ s.mailed, s.redis (codePrefix ++ m.1) = some m.2 ∧ s.codeAccepted m.1 m.2 = true := by
  have hinit : (init redis).Inv := ⟨fun c hc => (List.not_mem_nil hc).elim, fun m hm => (List.not_mem_nil hm).elim⟩
  have hinv : s.Inv := Run.run_along_invariant Inv (fun _ _ _ hi hc hs => step_inv hi hc hs) hinit ht h
  intro m hm
  have hstored := hinv.mailed m hm
  refine ⟨hstored, ?_⟩
  unfold codeAccepted
  rw [show CODEPREFIX = codePrefix from rfl, hstored]
  exact decide_eq_true rfl

/-- Two calls, the second while the first stores its code. -/
def twoCalls : List Event :=
  [.call "a", .call "a", .get 0 "12345", .set 0, .expire 0, .get 1 "67890", .mail 0, .mail 1]

theorem mailed_accepted_twoCalls :
    ∃ s, Run.run step (init fun _ => none) twoCalls = some s ∧ s.mailed = [("a", "1234"), ("a", "1234")] ∧
      ∀ m ∈ s.mailed, s.redis (codePrefix ++ m.1) = some m.2 ∧ s.codeAccepted m.1 m.2 = true := by
  have heval : (Run.run step (init fun _ => none) twoCalls).map (fun s => s.mailed) =
      some [("a", "1234"), ("a", "1234")] := by decide +kernel
  obtain ⟨s, hs, hmailed⟩ := Option.map_eq_some_iff.1 heval
  exact ⟨s, hs, hmailed, mailed_accepted (by decide +kernel) hs⟩

/-- Both look for a code before one stores it. -/
theorem code_replaced :
    ∃ s, Run.run step (init fun _ => none)
        [.call "a", .call "a", .get 0 "12345", .get 1 "67890", .set 0, .expire 0, .mail 0, .set 1] = some s ∧
      s.mailed = [("a", "1234")] ∧ s.redis (codePrefix ++ "a") = some "6789" ∧
        s.codeAccepted "a" "1234" = false := by
  have heval : (Run.run step (init fun _ => none)
        [.call "a", .call "a", .get 0 "12345", .get 1 "67890", .set 0, .expire 0, .mail 0, .set 1]).map
      (fun s => (s.mailed, s.redis (codePrefix ++ "a"), s.codeAccepted "a" "1234")) =
        some ([("a", "1234")], some "6789", false) := by decide +kernel
  obtain ⟨s, hs, hq⟩ := Option.map_eq_some_iff.1 heval
  obtain ⟨hmailed, hq⟩ := Prod.mk.inj hq
  obtain ⟨hredis, haccepted⟩ := Prod.mk.inj hq
  exact ⟨s, hs, hmailed, hredis, haccepted⟩

end Server

end Learncc.VerifyServer
