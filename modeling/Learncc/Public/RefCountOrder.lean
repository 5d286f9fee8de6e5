/-
`ref_count_stack` as a stack: a push takes effect when its exchange puts the node
at the head, a pop when its exchange takes the head away, before it has the value,
or when it finds no head. In the order in which they do so, the calls are those
of a stack.
-/
import Learncc.Public.RefCountRun
import Learncc.Lib.Effect
import Learncc.Lib.LinkedStack

namespace Learncc.RefCountStack

variable {α : Type} {s s' : RefCountStack α} {calls : List (Call α)} {owner : ℕ → Owner} {ext : ℕ → ℤ}
  {stack : List ℕ} {c c' : Call α} {i n : ℕ} {data : α} {choice : Choice} {heap heap' : ℕ → Option (CountNode α)}

/-- The value of a push. -/
def Op.pushed : Op α → Option α
  | .push data => some data
  | .pop => none

namespace Call

def op : Call α → Op α
  | .push data _ => .push data
  | .pop _ => .pop

def answer : Call α → Option (Option α)
  | .push _ .returned => some none
  | .pop (.returned res) => some res
  | _ => none

/-- The answer of a call that has taken effect. A pop that is about to swap the
value out has taken it. -/
def effect (s : RefCountStack α) : Call α → Option (Option α)
  | .push _ .returned => some none
  | .pop (.swap oldHead) => some (valueOf s.heap oldHead.ptr)
  | .pop (.add _ res) | .pop (.delete _ res) => some (some res)
  | .pop (.returned res) => some res
  | _ => none

end Call

/-- The values from the head on. -/
def Holds (s : RefCountStack α) (l : List α) : Prop :=
  Stored (fun n => (nextOf s.heap n).ptr) (valueOf s.heap) s.head.ptr l

def Represents (s : RefCountStack α) (calls : List (Call α)) (l : List α) : Prop := Ok s calls ∧ s.Holds l

/-! ## What a move does to the nodes -/

/-- Links and values change at the mover's own nodes and at new ones only. -/
def Keeps (owner : ℕ → Owner) (i : ℕ) (heap heap' : ℕ → Option (CountNode α)) : Prop :=
  ∀ n, owner n = .call i ∨ owner n = .free ∨
    nextOf heap' n = nextOf heap n ∧ valueOf heap' n = valueOf heap n

theorem Keeps.refl (heap : ℕ → Option (CountNode α)) : Keeps owner i heap heap := fun _ => .inr (.inr ⟨rfl, rfl⟩)

theorem Keeps.update {b : Option (CountNode α)} (h : owner n = .call i ∨ owner n = .free) :
    Keeps owner i heap (Function.update heap n b) := by
  intro m
  by_cases hmn : m = n
  · rw [hmn]
    rcases h with h | h
    · exact .inl h
    · exact .inr (.inl h)
  · have he : Function.update heap n b m = heap m := Function.update_of_ne hmn _ _
    exact .inr (.inr ⟨nextOf_congr he, valueOf_congr he⟩)

/-- The count of a node is neither. -/
theorem Keeps.count {x : CountNode α} {k : ℤ} (hx : heap n = some x) :
    Keeps owner i heap (Function.update heap n (some { x with internalCount := k })) := by
  intro m
  by_cases hmn : m = n
  · rw [hmn, nextOf_some hx, valueOf_some hx, nextOf_some (Function.update_self ..),
      valueOf_some (Function.update_self ..)]
    exact .inr (.inr ⟨rfl, rfl⟩)
  · have he : Function.update heap n (some { x with internalCount := k }) m = heap m := Function.update_of_ne hmn _ _
    exact .inr (.inr ⟨nextOf_congr he, valueOf_congr he⟩)

/-- Where there is no node, nobody has one. -/
theorem Inv.free_of_none (h : Inv s calls owner ext stack) (hn : s.heap n = none) : owner n = .free := by
  have hnode := h.node n
  rw [hn] at hnode
  cases ho : owner n with
  | free => rfl
  | stack =>
    rw [ho] at hnode
    obtain ⟨x, hx, -⟩ := hnode
    cases hx
  | shared =>
    rw [ho] at hnode
    obtain ⟨x, hx, -⟩ := hnode
    cases hx
  | call j =>
    rw [ho] at hnode
    obtain ⟨x, -, hx, -⟩ := hnode
    cases hx

theorem push_effect {pc pc' : PushPc} (h : Inv s calls owner ext stack) (hc : calls[i]? = some (.push data pc))
    (hm : s.push data choice pc = some (pc', s')) : Keeps owner i s.heap s'.heap ∧
      (Call.effect s' (.push data pc') = Call.effect s (.push data pc) ∧ s'.head = s.head ∨
        pc' = .returned ∧ Call.effect s (.push data pc) = none ∧
          ∃ n x, n ≠ 0 ∧ s.heap n = some x ∧ x.data = some data ∧ x.next = s.head ∧
            s' = { s with head := ⟨1, n⟩ }) := by
  cases pc with
  | alloc =>
    simp only [push] at hm
    split at hm
    · rename_i ha
      cases hm
      exact ⟨Keeps.update (.inr (h.free_of_none ha.2)), .inl ⟨rfl, rfl⟩⟩
    · cases hm
  | load n =>
    obtain ⟨-, howner, x, hx, -⟩ := h.mine (n := n) hc rfl
    simp only [push, hx] at hm
    cases hm
    exact ⟨Keeps.update (.inl howner), .inl ⟨rfl, rfl⟩⟩
  | cas n =>
    obtain ⟨hne, howner, x, hx, hdata, -⟩ := h.mine (n := n) hc rfl
    simp only [push, hx] at hm
    split at hm
    · rename_i hhead
      cases hm
      exact ⟨Keeps.refl _, .inr ⟨rfl, rfl, n, x, hne, hx, hdata, hhead.1.symm, rfl⟩⟩
    · cases hm
      exact ⟨Keeps.update (.inl howner), .inl ⟨rfl, rfl⟩⟩
  | returned => cases hm
  | undefined => cases hm

theorem pop_effect {pc pc' : PopPc α} (h : Inv s calls owner ext stack) (hc : calls[i]? = some (.pop pc))
    (hm : s.pop pc = some (pc', s')) : Keeps owner i s.heap s'.heap ∧
      (Call.effect s' (.pop pc') = Call.effect s (.pop pc) ∧ s'.head.ptr = s.head.ptr ∨
        Call.effect s (.pop pc) = none ∧
          (s.head.ptr = 0 ∧ pc' = .returned none ∧ s'.head.ptr = 0 ∨
            s.head.ptr ≠ 0 ∧ pc' = .swap s.head ∧ s' = { s with head := nextOf s.heap s.head.ptr })) := by
  cases pc with
  | loadHead =>
    cases hm
    exact ⟨Keeps.refl _, .inl ⟨rfl, rfl⟩⟩
  | increase oldHead =>
    simp only [pop] at hm
    split at hm
    · rename_i hhead
      cases hm
      by_cases hptr : oldHead.ptr = 0
      · rw [if_pos hptr]
        exact ⟨Keeps.refl _, .inr ⟨rfl, .inl ⟨by rw [hhead, hptr], rfl, hptr⟩⟩⟩
      · rw [if_neg hptr]
        exact ⟨Keeps.refl _, .inl ⟨rfl, by rw [hhead]⟩⟩
    · cases hm
      exact ⟨Keeps.refl _, .inl ⟨rfl, rfl⟩⟩
  | readNext oldHead =>
    obtain ⟨-, -, -, x, hx⟩ := h.held (n := oldHead.ptr) hc rfl
    simp only [pop, hx] at hm
    cases hm
    exact ⟨Keeps.refl _, .inl ⟨rfl, rfl⟩⟩
  | casHead oldHead next =>
    obtain ⟨hne, -⟩ := h.held (n := oldHead.ptr) hc rfl
    simp only [pop] at hm
    split at hm
    · rename_i hhead
      subst hhead
      cases hm
      obtain ⟨rest, hstack, -, -⟩ := h.chain.uncons hne
      have howner : owner s.head.ptr = .stack := by
        rw [← h.mem_stack, hstack]
        exact List.mem_cons_self
      rw [h.front _ _ (List.mem_of_getElem? hc) howner]
      exact ⟨Keeps.refl _, .inr ⟨rfl, .inr ⟨hne, rfl, rfl⟩⟩⟩
    · cases hm
      exact ⟨Keeps.refl _, .inl ⟨rfl, rfl⟩⟩
  | swap oldHead =>
    obtain ⟨-, howner, x, hx, hdata, -⟩ := h.mine (n := oldHead.ptr) hc rfl
    simp only [pop, hx] at hm
    cases hm
    obtain ⟨res, hres⟩ := Option.isSome_iff_exists.1 hdata
    refine ⟨Keeps.update (.inl howner), .inl ⟨?_, rfl⟩⟩
    simp only [Call.effect, valueOf_some hx, hres]
  | add oldHead res =>
    obtain ⟨-, howner, x, hx, -⟩ := h.mine (n := oldHead.ptr) hc rfl
    simp only [pop, hx] at hm
    cases hm
    refine ⟨Keeps.update (.inl howner), .inl ⟨?_, rfl⟩⟩
    split <;> rfl
  | delete ptr res =>
    obtain ⟨-, howner, x, hx, -⟩ := h.mine (n := ptr) hc rfl
    simp only [pop, hx] at hm
    cases hm
    exact ⟨Keeps.update (.inl howner), .inl ⟨rfl, rfl⟩⟩
  | release ptr again =>
    obtain ⟨-, -, -, x, hx⟩ := h.held (n := ptr) hc rfl
    simp only [pop, hx] at hm
    cases hm
    refine ⟨Keeps.count hx, .inl ⟨?_, rfl⟩⟩
    split <;> rfl
  | loadCount ptr again =>
    obtain ⟨-, -, x, hx, -⟩ := h.mine (n := ptr) hc rfl
    simp only [pop, hx] at hm
    cases hm
    exact ⟨Keeps.refl _, .inl ⟨rfl, rfl⟩⟩
  | deleteAgain ptr again =>
    obtain ⟨-, howner, x, hx, -⟩ := h.mine (n := ptr) hc rfl
    simp only [pop, hx] at hm
    cases hm
    exact ⟨Keeps.update (.inl howner), .inl ⟨rfl, rfl⟩⟩
  | returned res => cases hm
  | thrown => cases hm
  | undefined => cases hm

/-! ## The stack -/

/-- A move that leaves the head where it is leaves the stack as it is. -/
theorem Holds.keep {l : List α} (h : s.Holds l) (hinv : Inv s calls owner ext stack)
    (hkeeps : Keeps owner i s.heap s'.heap) (hhead : s'.head.ptr = s.head.ptr) : s'.Holds l := by
  unfold Holds
  rw [hhead]
  refine Stored.congr h hinv.chain.linked fun n hn => ?_
  have howner := (hinv.mem_stack n).1 hn
  rcases hkeeps n with hmine | hfree | ⟨hnext, hvalue⟩
  · rw [howner] at hmine
    cases hmine
  · rw [howner] at hfree
    cases hfree
  · exact ⟨congrArg CountedNodePtr.ptr hnext, hvalue⟩

/-- A call whose effect is read off a node owns the node. -/
theorem effect_congr (hinv : Inv s calls owner ext stack) (hkeeps : Keeps owner i s.heap s'.heap) {j : ℕ} {d : Call α}
    (hji : j ≠ i) (hd : calls[j]? = some d) : d.effect s' = d.effect s := by
  cases d with
  | push data pc => cases pc <;> rfl
  | pop pc =>
    cases pc with
    | swap oldHead =>
      have howner := hinv.own j _ oldHead.ptr hd rfl
      simp only [Call.effect]
      rcases hkeeps oldHead.ptr with hmine | hfree | ⟨-, hvalue⟩
      · rw [howner] at hmine
        exact absurd (Owner.call.inj hmine) hji
      · rw [howner] at hfree
        cases hfree
      · rw [hvalue]
    | _ => rfl

theorem represents_push {pc pc' : PushPc} {l : List α} (hinv : Inv s calls owner ext stack) (hl : s.Holds l)
    (hc : calls[i]? = some (.push data pc)) (hm : s.push data choice pc = some (pc', s')) :
    Call.effect s' (.push data pc') = Call.effect s (.push data pc) ∧ s'.Holds l ∨
      Call.effect s (.push data pc) = none ∧ ∃ r l', Call.effect s' (.push data pc') = some r ∧
        Lifo (some data) l r l' ∧ s'.Holds l' := by
  obtain ⟨hkeeps, ⟨hsame, hhead⟩ | ⟨rfl, hnone, n, x, hne, hx, hdata, hnext, rfl⟩⟩ := push_effect hinv hc hm
  · exact .inl ⟨hsame, hl.keep hinv hkeeps (congrArg _ hhead)⟩
  · refine .inr ⟨hnone, none, data :: l, rfl, .push data l, ?_⟩
    refine Stored.push hl hne ?_ ((valueOf_some hx).trans hdata)
    show (nextOf s.heap n).ptr = s.head.ptr
    rw [nextOf_some hx, hnext]

theorem represents_pop {pc pc' : PopPc α} {l : List α} (hinv : Inv s calls owner ext stack) (hl : s.Holds l)
    (hc : calls[i]? = some (.pop pc)) (hm : s.pop pc = some (pc', s')) :
    Call.effect s' (.pop pc') = Call.effect s (.pop pc) ∧ s'.Holds l ∨
      Call.effect s (.pop pc) = none ∧ ∃ r l', Call.effect s' (.pop pc') = some r ∧ Lifo none l r l' ∧ s'.Holds l' := by
  obtain ⟨hkeeps, ⟨hsame, hhead⟩ | ⟨hnone, ⟨hempty, rfl, hempty'⟩ | ⟨hne, rfl, rfl⟩⟩⟩ := pop_effect hinv hc hm
  · exact .inl ⟨hsame, hl.keep hinv hkeeps hhead⟩
  · have hkept := hl.keep hinv hkeeps (hempty'.trans hempty.symm)
    have hnil : l = [] := by
      unfold Holds at hl
      rw [hempty] at hl
      exact hl.eq_nil
    rw [hnil] at hkept ⊢
    exact .inr ⟨hnone, none, [], rfl, .empty, hkept⟩
  · obtain ⟨v, rest, rfl, hv, hrest⟩ := Stored.pop hl hne
    refine .inr ⟨hnone, some v, rest, ?_, .pop v rest, hrest⟩
    exact congrArg some hv

theorem atomicIn : Calls.AtomicIn (program (α := α)) Call.op Call.effect Call.answer (fun o => Lifo o.pushed)
    Represents where
  enter o := by cases o <;> exact ⟨rfl, fun _ => rfl⟩
  answered := fun {s c r} hr => by
    cases c with
    | push data pc =>
      cases pc with
      | returned => exact hr
      | _ => cases hr
    | pop pc =>
      cases pc with
      | returned res => exact hr
      | _ => cases hr
  call := fun {s calls l o} h => by
    obtain ⟨⟨owner, ext, stack, hinv⟩, hl⟩ := h
    refine ⟨⟨owner, ext, stack, ?_⟩, hl⟩
    cases o <;> exact hinv.enter rfl rfl rfl rfl rfl
  others := fun {s calls l i c choice c' s'} h hc hm j d hji hd => by
    obtain ⟨⟨owner, ext, stack, hinv⟩, -⟩ := h
    cases c with
    | push data pc =>
      obtain ⟨⟨pc', t⟩, hp, he⟩ := Option.map_eq_some_iff.1 hm
      cases he
      exact effect_congr hinv (push_effect hinv hc hp).1 hji hd
    | pop pc =>
      obtain ⟨⟨pc', t⟩, hp, he⟩ := Option.map_eq_some_iff.1 hm
      cases he
      exact effect_congr hinv (pop_effect hinv hc hp).1 hji hd
  move := fun {s calls l i c choice c' s'} h hc hm => by
    obtain ⟨⟨owner, ext, stack, hinv⟩, hl⟩ := h
    cases c with
    | push data pc =>
      obtain ⟨⟨pc', t⟩, hp, he⟩ := Option.map_eq_some_iff.1 hm
      cases he
      have hok := push_inv hinv hc hp
      refine ⟨rfl, ?_⟩
      rcases represents_push hinv hl hc hp with ⟨hsame, hl⟩ | ⟨hnone, r, l', hr, hspec, hl⟩
      · exact .inl ⟨hsame, hok, hl⟩
      · exact .inr ⟨hnone, r, l', hr, hspec, hok, hl⟩
    | pop pc =>
      obtain ⟨⟨pc', t⟩, hp, he⟩ := Option.map_eq_some_iff.1 hm
      cases he
      have hok := pop_inv hinv hc hp
      refine ⟨rfl, ?_⟩
      rcases represents_pop hinv hl hc hp with ⟨hsame, hl⟩ | ⟨hnone, r, l', hr, hspec, hl⟩
      · exact .inl ⟨hsame, hok, hl⟩
      · exact .inr ⟨hnone, r, l', hr, hspec, hok, hl⟩

/-- **A stack.** In every run the calls have an order, consistent with real time,
in which each is a push or a pop of one stack with the answer it returns, and
what the nodes from the head on hold is that stack. -/
theorem counted_lifo {events : List (Event α)} {t : System α} (h : Run.run program.step start events = some t) :
    ∃ log l, t.shared.Holds l ∧
      Calls.Linearized program (Calls.View.plain Call.op Call.answer) (fun o => Lifo o.pushed) start [] events t log
        l := by
  have hstart : Represents (init : RefCountStack α) [] [] := ⟨⟨_, _, _, inv_start⟩, Stored.nil⟩
  obtain ⟨log, l, hrep, hlin⟩ := atomicIn.linearized hstart h
  exact ⟨log, l, hrep.2, hlin⟩

theorem counted_lifo_lateReader :
    ∃ t, Run.run program.step start lateReader = some t ∧
      t.calls = [.push 5 .returned, .pop (.returned none), .pop (.returned (some 5)), .push 6 .returned] ∧
      ∃ log l, t.shared.Holds l ∧ Calls.Linearized program (Calls.View.plain Call.op Call.answer)
        (fun o => Lifo o.pushed) start [] lateReader t log l := by
  have heval : (Run.run program.step start lateReader).map (fun t => t.calls) =
      some [.push 5 .returned, .pop (.returned none), .pop (.returned (some 5)), .push 6 .returned] := by
    decide +kernel
  obtain ⟨t, ht, hcalls⟩ := Option.map_eq_some_iff.1 heval
  exact ⟨t, ht, hcalls, counted_lifo ht⟩

end Learncc.RefCountStack
