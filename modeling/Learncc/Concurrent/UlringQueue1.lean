/-
`ulring_queue1` (src/concurrent/atomic_.cc), a ring without locks: push3 takes
a slot by moving `tail_`, writes it and moves `tail_update_` past it; pop copies
the front slot and then moves `head_`. Every atomic operation and every access
to a slot is one step.

The slots are storage that is allocated and never constructed in: push3 assigns to them.
That is defined for a type whose objects come into being with their storage, as scalars
do; of any other type a slot holds no object.

Positions are counted from the start of the run and are not reduced: the slot
of position `k` is `k % max_`. `accepted` and `popped` are records of the
values taken in and given out, in order.
-/
import Learncc.Lib.Calls
import Mathlib.Data.Multiset.OrderedMonoid
import Mathlib.Data.Nat.ModEq

namespace Learncc

/-- A slot without an object is `none`. -/
structure UlringQueue1 (α : Type) where
  max : ℕ
  data : ℕ → Option α
  head : ℕ
  tail : ℕ
  tailUpdate : ℕ
  accepted : List α
  popped : List α
  undefined : Bool

namespace UlringQueue1

variable {α : Type}

/-- `storage` is what `allocate` has answered. `max_` is a `size_t`. -/
def init (size : ℕ) (storage : ℕ → Option α) : UlringQueue1 α :=
  { max := (size + 1) % 2 ^ 64, data := storage, head := 0, tail := 0, tailUpdate := 0, accepted := [], popped := []
    undefined := false }

/-- What the next step of `push3` is. -/
inductive PushPc
  | loadTail
  | loadHead (t : ℕ)
  | casTail (t : ℕ)
  | write (t : ℕ)
  | casUpdate (t : ℕ)
  | returned (ok : Bool)
deriving Repr, DecidableEq

/-- What the next step of `pop` is: `head_` is loaded once more for the slot
that is read. -/
inductive PopPc (α : Type)
  | loadHead
  | loadTail (h : ℕ)
  | loadUpdate (h : ℕ)
  | loadIndex (h : ℕ)
  | read (h i : ℕ)
  | casHead (h : ℕ) (val : α)
  | returned (val : Option α)
deriving Repr, DecidableEq

inductive Call (α : Type)
  | push3 (val : α) (pc : PushPc)
  | pop (pc : PopPc α)
deriving Repr, DecidableEq

inductive Op (α : Type)
  | push3 (val : α)
  | pop

def push3 (q : UlringQueue1 α) (val : α) : PushPc → Option (PushPc × UlringQueue1 α)
  | .loadTail => some (.loadHead q.tail, q)
  | .loadHead t =>
    if q.max = 0 then some (.returned false, { q with undefined := true })
    else if (t + 1) % q.max = q.head then some (.returned false, q)
    else some (.casTail t, q)
  | .casTail t =>
    if q.tail = t then some (.write t, { q with tail := (t + 1) % q.max, accepted := q.accepted ++ [val] })
    else some (.loadTail, q)
  | .write t =>
    match q.data t with
    | none => some (.returned false, { q with undefined := true })
    | some _ => some (.casUpdate t, { q with data := Function.update q.data t (some val) })
  | .casUpdate t =>
    if q.tailUpdate = t then some (.returned true, { q with tailUpdate := (t + 1) % q.max })
    else some (.casUpdate t, q)
  | .returned _ => none

def pop (q : UlringQueue1 α) : PopPc α → Option (PopPc α × UlringQueue1 α)
  | .loadHead => some (.loadTail q.head, q)
  | .loadTail h => if h = q.tail then some (.returned none, q) else some (.loadUpdate h, q)
  | .loadUpdate h => if h = q.tailUpdate then some (.returned none, q) else some (.loadIndex h, q)
  | .loadIndex h => some (.read h q.head, q)
  | .read h i =>
    match q.data i with
    | none => some (.returned none, { q with undefined := true })
    | some val => some (.casHead h val, q)
  | .casHead h val =>
    if q.head = h then
      some (.returned (some val), { q with head := (h + 1) % q.max, popped := q.popped ++ [val] })
    else some (.loadHead, q)
  | .returned _ => none

def program : Calls.Program (UlringQueue1 α) (Call α) (Op α) Unit where
  enter
    | .push3 val => .push3 val .loadTail
    | .pop => .pop .loadHead
  move
    | .push3 val pc, _, q => (q.push3 val pc).map fun r => (.push3 val r.1, r.2)
    | .pop pc, _, q => (q.pop pc).map fun r => (.pop r.1, r.2)

abbrev System (α : Type) : Type := Calls (UlringQueue1 α) (Call α)

abbrev Event (α : Type) : Type := Calls.Event (Op α) Unit

/-- A new queue, and nobody has called. -/
def start (size : ℕ) (storage : ℕ → Option α) : System α := ⟨init size storage, []⟩

/-- What the slots have from `head_` on, up to `tail_`. -/
def slots (q : UlringQueue1 α) : List (Option α) :=
  (List.range ((q.tail + q.max - q.head) % q.max)).map fun k => q.data ((q.head + k) % q.max)

def Call.done : Call α → Bool
  | .push3 _ (.returned _) | .pop (.returned _) => true
  | _ => false

/-- The value the call has put into the queue, or will. -/
def Call.put : Call α → Multiset α
  | .push3 val (.write _) | .push3 val (.casUpdate _) | .push3 val (.returned true) => {val}
  | _ => 0

/-- The value the call was given. -/
def Call.got : Call α → Multiset α
  | .pop (.returned (some val)) => {val}
  | _ => 0

/-- A slot that is assigned to or copied holds an object. What a call found is still so
when its exchange succeeds: there is a free slot, or the front slot is written and has the
value that was copied. -/
def Steady [DecidableEq α] (s : System α) : Event α → Bool
  | .call _ => true
  | .move i _ =>
    match s.calls[i]? with
    | some (.push3 _ (.casTail t)) => s.shared.tail ≠ t || (t + 1) % s.shared.max ≠ s.shared.head
    | some (.push3 _ (.write t)) => (s.shared.data t).isSome
    | some (.pop (.read _ k)) => (s.shared.data k).isSome
    | some (.pop (.casHead h val)) => s.shared.head ≠ h || (h ≠ s.shared.tailUpdate && s.shared.data h = some val)
    | _ => true

/-- The slot that is the call's own: taken and not yet published. -/
def Call.slot : Call α → Option ℕ
  | .push3 _ (.write t) | .push3 _ (.casUpdate t) => some t
  | _ => none

def Call.owns (t : ℕ) (c : Call α) : ℕ := if c.slot = some t then 1 else 0

/-! ## Positions -/

/-- In a window of `m` positions every slot comes once. -/
theorem window_inj {m n a b : ℕ} (ha : n ≤ a) (ha' : a < n + m) (hb : n ≤ b) (hb' : b < n + m)
    (h : a % m = b % m) : a = b := by
  wlog hle : a ≤ b generalizing a b
  · exact (this hb hb' ha ha' h.symm (by omega)).symm
  have hdvd : m ∣ b - a := (Nat.modEq_iff_dvd' hle).1 h
  have hzero : b - a = 0 := Nat.eq_zero_of_dvd_of_lt hdvd (by omega)
  omega

theorem succ_mod (k m : ℕ) : (k % m + 1) % m = (k + 1) % m := Nat.mod_add_mod k m 1

/-- How many slots there are from one position to another, if fewer than all. -/
theorem distance {m a n : ℕ} (hpos : 0 < m) (hn : n < m) : ((a + n) % m + m - a % m) % m = n := by
  have ha := Nat.mod_lt a hpos
  have hsum : (a + n) % m + m - a % m + a % m = (a + n) % m + m := by omega
  have hmod : ((a + n) % m + m - a % m) % m + a % m ≡ n + a % m [MOD m] := by
    refine (Nat.ModEq.add_right _ (Nat.mod_modEq _ _)).trans ?_
    rw [hsum]
    refine (Nat.add_modEq_right).trans ((Nat.mod_modEq _ _).trans ?_)
    rw [Nat.add_comm a n]
    exact Nat.ModEq.add_left n (Nat.mod_modEq a m).symm
  have heq := Nat.ModEq.add_right_cancel' _ hmod
  exact Nat.ModEq.eq_of_lt_of_lt heq (Nat.mod_lt _ hpos) hn

variable {q q' : UlringQueue1 α} {calls : List (Call α)} {c c' : Call α} {i u : ℕ}

/-- The queue when `u` values have been published: those not yet popped are in
their slots, and every later slot that is taken is some pushing call's own. -/
structure Inv (q : UlringQueue1 α) (calls : List (Call α)) (u : ℕ) : Prop where
  max_pos : 0 < q.max
  head_eq : q.head = q.popped.length % q.max
  tail_eq : q.tail = q.accepted.length % q.max
  update_eq : q.tailUpdate = u % q.max
  popped_le : q.popped.length ≤ u
  le_accepted : u ≤ q.accepted.length
  room : q.accepted.length < q.popped.length + q.max
  popped_prefix : q.popped <+: q.accepted
  data : ∀ k, q.popped.length ≤ k → k < u → q.accepted[k]? = q.data (k % q.max)
  taken : ∀ k, u ≤ k → k < q.accepted.length → Calls.total (Call.owns (k % q.max)) calls = 1
  own : ∀ c ∈ calls, ∀ t, c.slot = some t → ∃ k, u ≤ k ∧ k < q.accepted.length ∧ t = k % q.max
  value : ∀ val t, Call.push3 val (.write t) ∈ calls ∨ Call.push3 val (.casUpdate t) ∈ calls →
    ∀ k, u ≤ k → k < q.accepted.length → t = k % q.max → q.accepted[k]? = some val
  written : ∀ val t, Call.push3 val (.casUpdate t) ∈ calls → q.data t = some val
  put : Calls.total Call.put calls = (q.accepted : Multiset α)
  got : Calls.total Call.got calls = (q.popped : Multiset α)
  defined : q.undefined = false

theorem init_max_pos {size : ℕ} (hsize : size + 1 < 2 ^ 64) (storage : ℕ → Option α) :
    0 < (init size storage).max := by
  show 0 < (size + 1) % 2 ^ 64
  rw [Nat.mod_eq_of_lt hsize]
  exact Nat.succ_pos size

theorem inv_start {size : ℕ} (hsize : size + 1 < 2 ^ 64) (storage : ℕ → Option α) : Inv (init size storage) [] 0 where
  max_pos := init_max_pos hsize storage
  head_eq := (Nat.zero_mod _).symm
  tail_eq := (Nat.zero_mod _).symm
  update_eq := (Nat.zero_mod _).symm
  popped_le := Nat.le_refl 0
  le_accepted := Nat.le_refl 0
  room := Nat.lt_of_lt_of_le (init_max_pos hsize storage) (Nat.le_add_left _ _)
  popped_prefix := List.prefix_refl []
  data := fun k _ hk => (Nat.not_lt_zero k hk).elim
  taken := fun k _ hk => (Nat.not_lt_zero k hk).elim
  own := fun _ hc => (List.not_mem_nil hc).elim
  value := fun _ _ h => (h.elim List.not_mem_nil List.not_mem_nil).elim
  written := fun _ _ h => (List.not_mem_nil h).elim
  put := rfl
  got := rfl
  defined := rfl

namespace Inv

/-- A call that has no slot of its own. -/
theorem enter (h : Inv q calls u) (hslot : c.slot = none) (hput : c.put = 0) (hgot : c.got = 0) :
    Inv q (calls ++ [c]) u := by
  have hold : ∀ {d : Call α} {t : ℕ}, d ∈ calls ++ [c] → d.slot = some t → d ∈ calls := by
    intro d t hd ht
    rcases List.mem_append.1 hd with hd | hd
    · exact hd
    · rw [List.mem_singleton.1 hd, hslot] at ht
      cases ht
  refine { h with taken := fun k hk hk' => ?_, own := fun d hd t ht => h.own d (hold hd ht) t ht,
                  value := fun val t hmem => h.value val t (hmem.imp (hold · rfl) (hold · rfl)),
                  written := fun val t hmem => h.written val t (hold hmem rfl), put := ?_, got := ?_ }
  · rw [Calls.total_concat, h.taken k hk hk', Call.owns, hslot]
    rfl
  · rw [Calls.total_concat, h.put, hput, add_zero]
  · rw [Calls.total_concat, h.got, hgot, add_zero]

/-- A move that takes no slot and leaves the queue as it is. -/
theorem idle (h : Inv q calls u) (hc : calls[i]? = some c) (hs : c.slot = none) (hs' : c'.slot = none)
    (hput : c'.put = c.put) (hgot : c'.got = c.got) : Inv q (calls.set i c') u := by
  have hold : ∀ {d : Call α} {t : ℕ}, d ∈ calls.set i c' → d.slot = some t → d ∈ calls := by
    intro d t hd ht
    rcases Calls.mem_set hd with rfl | ⟨j, -, hj⟩
    · rw [hs'] at ht
      cases ht
    · exact List.mem_of_getElem? hj
  refine { h with taken := fun k hk hk' => ?_, own := fun d hd t ht => h.own d (hold hd ht) t ht,
                  value := fun val t hmem => h.value val t (hmem.imp (hold · rfl) (hold · rfl)),
                  written := fun val t hmem => h.written val t (hold hmem rfl), put := ?_, got := ?_ }
  · rw [Calls.total_set_same hc (by simp only [Call.owns, hs, hs']), h.taken k hk hk']
  · rw [Calls.total_set_same hc hput, h.put]
  · rw [Calls.total_set_same hc hgot, h.got]

/-- A slot is left when the one behind the tail is not the front one. -/
theorem room_of_free (h : Inv q calls u) (hfree : (q.tail + 1) % q.max ≠ q.head) :
    q.accepted.length + 1 < q.popped.length + q.max := by
  rcases Nat.lt_or_eq_of_le (Nat.succ_le_of_lt h.room) with hlt | heq
  · exact hlt
  · exfalso
    apply hfree
    rw [h.tail_eq, succ_mod, h.head_eq, show q.accepted.length + 1 = q.popped.length + q.max from heq,
      Nat.add_mod_right]

/-- No position that is taken and not published has the tail's slot. -/
theorem taken_ne_tail (h : Inv q calls u) {k : ℕ} (hk : u ≤ k) (hk' : k < q.accepted.length) : k % q.max ≠ q.tail := by
  intro hmod
  have hroom := h.room
  have hle := h.popped_le
  rw [h.tail_eq] at hmod
  have := window_inj (n := u) hk (by omega) (Nat.le_of_lt (Nat.lt_of_le_of_lt hk hk')) (by omega) hmod
  omega

/-- So it is nobody's. -/
theorem tail_unowned (h : Inv q calls u) : Calls.total (Call.owns q.tail) calls = 0 := by
  refine Calls.total_eq_zero fun d hd => if_neg fun hs => ?_
  obtain ⟨k, hk, hk', hmod⟩ := h.own d hd _ hs
  exact h.taken_ne_tail hk hk' hmod.symm

/-- The call takes the slot at the tail, which is free. -/
theorem reserve (h : Inv q calls u) {val : α} (hc : calls[i]? = some (.push3 val (.casTail q.tail)))
    (hfree : (q.tail + 1) % q.max ≠ q.head) :
    Inv { q with tail := (q.tail + 1) % q.max, accepted := q.accepted ++ [val] }
      (calls.set i (.push3 val (.write q.tail))) u := by
  have hlen : (q.accepted ++ [val]).length = q.accepted.length + 1 := by simp
  have hslot : ∀ d ∈ calls.set i (.push3 val (.write q.tail)), ∀ t, d.slot = some t →
      t = q.tail ∧ d = .push3 val (.write q.tail) ∨ d ∈ calls := by
    intro d hd t ht
    rcases Calls.mem_set hd with rfl | ⟨j, -, hj⟩
    · cases ht
      exact .inl ⟨rfl, rfl⟩
    · exact .inr (List.mem_of_getElem? hj)
  have hnone := h.tail_unowned
  constructor
  · exact h.max_pos
  · exact h.head_eq
  · rw [hlen, h.tail_eq]
    exact succ_mod _ _
  · exact h.update_eq
  · exact h.popped_le
  · rw [hlen]
    exact Nat.le_succ_of_le h.le_accepted
  · rw [hlen]
    exact h.room_of_free hfree
  · exact h.popped_prefix.trans (List.prefix_append _ _)
  · intro k hk hk'
    rw [List.getElem?_append_left (Nat.lt_of_lt_of_le hk' h.le_accepted)]
    exact h.data k hk hk'
  · intro k hk hk'
    have hset : Calls.total (Call.owns (k % q.max)) (calls.set i (.push3 val (.write q.tail))) + _ = _ :=
      Calls.total_set hc
    rw [hlen] at hk'
    show Calls.total (Call.owns (k % q.max)) _ = 1
    rcases Nat.lt_or_eq_of_le (Nat.le_of_lt_succ hk') with hlt | rfl
    · have htaken := h.taken k hk hlt
      have hne : Call.owns (k % q.max) (.push3 val (.write q.tail)) = 0 := by
        simp [Call.owns, Call.slot, (h.taken_ne_tail hk hlt).symm]
      have hold : Call.owns (k % q.max) (.push3 val (.casTail q.tail)) = 0 := rfl
      omega
    · have hone : Call.owns q.tail (.push3 val (.write q.tail)) = 1 := by simp [Call.owns, Call.slot]
      have hold : Call.owns q.tail (.push3 val (.casTail q.tail)) = 0 := rfl
      rw [← h.tail_eq] at hset ⊢
      omega
  · intro d hd t ht
    rw [hlen]
    rcases hslot d hd t ht with ⟨rfl, -⟩ | hd
    · exact ⟨q.accepted.length, h.le_accepted, Nat.lt_succ_self _, h.tail_eq⟩
    · obtain ⟨k, hk, hk', hmod⟩ := h.own d hd t ht
      exact ⟨k, hk, Nat.lt_succ_of_lt hk', hmod⟩
  · intro val' t hmem k hk hk' hmod
    rw [hlen] at hk'
    have hcases : t = q.tail ∧ val' = val ∨
        (Call.push3 val' (.write t) ∈ calls ∨ Call.push3 val' (.casUpdate t) ∈ calls) := by
      rcases hmem with hmem | hmem
      · rcases hslot _ hmem t rfl with ⟨ht, he⟩ | hmem
        · cases he
          exact .inl ⟨ht, rfl⟩
        · exact .inr (.inl hmem)
      · rcases hslot _ hmem t rfl with ⟨-, he⟩ | hmem
        · cases he
        · exact .inr (.inr hmem)
    rcases Nat.lt_or_eq_of_le (Nat.le_of_lt_succ hk') with hlt | rfl
    · rw [List.getElem?_append_left hlt]
      rcases hcases with ⟨ht, -⟩ | hold
      · exact absurd (hmod.symm.trans ht) (h.taken_ne_tail hk hlt)
      · exact h.value val' t hold k hk hlt hmod
    · rcases hcases with ⟨-, rfl⟩ | hold
      · exact List.getElem?_concat_length
      · exfalso
        rw [hmod, ← h.tail_eq] at hold
        rcases hold with hold | hold
        · exact absurd (Calls.total_eq_zero_iff.1 hnone _ hold) (by simp [Call.owns, Call.slot])
        · exact absurd (Calls.total_eq_zero_iff.1 hnone _ hold) (by simp [Call.owns, Call.slot])
  · intro val' t hmem
    rcases hslot _ hmem t rfl with ⟨-, he⟩ | hmem
    · cases he
    · exact h.written val' t hmem
  · rw [Calls.total_set_add (m := {val}) hc (zero_add _).symm, h.put]
    rfl
  · exact (Calls.total_set_same hc (by rfl)).trans h.got
  · exact h.defined

/-- The slot of a call that has one is that of one position. -/
theorem position (h : Inv q calls u) {t : ℕ} (hc : calls[i]? = some c) (ht : c.slot = some t) :
    ∃ k, u ≤ k ∧ k < q.accepted.length ∧ t = k % q.max ∧ Calls.total (Call.owns t) calls = 1 := by
  obtain ⟨k, hk, hk', rfl⟩ := h.own c (List.mem_of_getElem? hc) t ht
  exact ⟨k, hk, hk', rfl, h.taken k hk hk'⟩

/-- No other call has the same slot. -/
theorem alone (h : Inv q calls u) {t j : ℕ} {d : Call α} (hc : calls[i]? = some c) (ht : c.slot = some t)
    (hj : calls[j]? = some d) (hd : d.slot = some t) : i = j := by
  obtain ⟨-, -, -, -, hone⟩ := h.position hc ht
  by_contra hij
  have htwo := Calls.add_le_total (f := Call.owns t) hc hj hij
  rw [hone, Call.owns, Call.owns, if_pos ht, if_pos hd] at htwo
  omega

/-- The call writes the slot it has taken. -/
theorem write (h : Inv q calls u) {val : α} {t : ℕ} (hc : calls[i]? = some (.push3 val (.write t))) :
    Inv { q with data := Function.update q.data t (some val) } (calls.set i (.push3 val (.casUpdate t))) u := by
  obtain ⟨n, hn, hn', htn, -⟩ := h.position (t := t) hc rfl
  have hroom := h.room
  have hle := h.popped_le
  have hold : ∀ d ∈ calls.set i (.push3 val (.casUpdate t)), ∀ t', d.slot = some t' →
      t' = t ∧ d = .push3 val (.casUpdate t) ∨ t' ≠ t ∧ d ∈ calls := by
    intro d hd t' ht'
    rcases Calls.mem_set hd with rfl | ⟨j, hji, hj⟩
    · cases ht'
      exact .inl ⟨rfl, rfl⟩
    · refine .inr ⟨fun htt => hji ?_, List.mem_of_getElem? hj⟩
      rw [htt] at ht'
      exact (h.alone (t := t) hc rfl hj ht').symm
  refine { h with data := fun k hk hk' => ?_, taken := fun k hk hk' => ?_, own := fun d hd t' ht' => ?_,
                  value := fun val' t' hmem k hk hk' hmod => ?_, written := fun val' t' hmem => ?_,
                  put := ?_, got := ?_ }
  · have hne : k % q.max ≠ t := by
      rw [htn]
      intro hmod
      have := window_inj (n := q.popped.length) hk (by omega) (by omega) (by omega) hmod
      omega
    show _ = Function.update q.data t (some val) (k % q.max)
    rw [Function.update_of_ne hne]
    exact h.data k hk hk'
  · exact (Calls.total_set_same hc (by rfl)).trans (h.taken k hk hk')
  · rcases hold d hd t' ht' with ⟨rfl, -⟩ | ⟨-, hd⟩
    · exact ⟨n, hn, hn', htn⟩
    · exact h.own d hd t' ht'
  · have hbefore : Call.push3 val' (.write t') ∈ calls ∨ Call.push3 val' (.casUpdate t') ∈ calls := by
      rcases hmem with hmem | hmem
      · rcases hold _ hmem t' rfl with ⟨-, he⟩ | ⟨-, hmem⟩
        · cases he
        · exact .inl hmem
      · rcases hold _ hmem t' rfl with ⟨-, he⟩ | ⟨-, hmem⟩
        · cases he
          exact .inl (List.mem_of_getElem? hc)
        · exact .inr hmem
    exact h.value val' t' hbefore k hk hk' hmod
  · show Function.update q.data t (some val) t' = some val'
    rcases hold _ hmem t' rfl with ⟨-, he⟩ | ⟨hne, hmem⟩
    · cases he
      exact Function.update_self ..
    · rw [Function.update_of_ne hne]
      exact h.written val' t' hmem
  · exact (Calls.total_set_same hc (by rfl)).trans h.put
  · exact (Calls.total_set_same hc (by rfl)).trans h.got

/-- The call whose slot is the next to be published publishes it. -/
theorem publish (h : Inv q calls u) {val : α} (hc : calls[i]? = some (.push3 val (.casUpdate q.tailUpdate))) :
    Inv { q with tailUpdate := (q.tailUpdate + 1) % q.max } (calls.set i (.push3 val (.returned true))) (u + 1) := by
  obtain ⟨n, hn, hn', htn, hone⟩ := h.position (t := q.tailUpdate) hc rfl
  have hroom := h.room
  have hle := h.popped_le
  -- It is the first that is not published yet.
  have hnu : u = n := window_inj (n := u) (Nat.le_refl u) (by omega) hn (by omega) (h.update_eq.symm.trans htn)
  subst hnu
  have hold : ∀ d ∈ calls.set i (.push3 val (.returned true)), ∀ t, d.slot = some t →
      t ≠ q.tailUpdate ∧ d ∈ calls := by
    intro d hd t ht
    rcases Calls.mem_set hd with rfl | ⟨j, hji, hj⟩
    · cases ht
    · refine ⟨fun htt => hji ?_, List.mem_of_getElem? hj⟩
      rw [htt] at ht
      exact (h.alone (t := q.tailUpdate) hc rfl hj ht).symm
  refine { h with update_eq := ?_, popped_le := Nat.le_succ_of_le h.popped_le, le_accepted := hn',
                  data := fun k hk hk' => ?_, taken := fun k hk hk' => ?_, own := fun d hd t ht => ?_,
                  value := fun val' t hmem k hk hk' hmod => ?_, written := fun val' t hmem => ?_,
                  put := ?_, got := ?_ }
  · show (q.tailUpdate + 1) % q.max = (u + 1) % q.max
    rw [h.update_eq, succ_mod]
  · rcases Nat.lt_or_eq_of_le (Nat.le_of_lt_succ hk') with hlt | rfl
    · exact h.data k hk hlt
    · rw [← htn]
      have hval := h.written val _ (List.mem_of_getElem? hc)
      rw [hval]
      exact h.value val _ (.inr (List.mem_of_getElem? hc)) k hn hn' htn
  · have hk' : k < q.accepted.length := hk'
    have hne : k % q.max ≠ q.tailUpdate := by
      rw [htn]
      intro hmod
      have := window_inj (n := q.popped.length) (by omega) (by omega) (by omega) (by omega) hmod
      omega
    refine (Calls.total_set_same hc ?_).trans (h.taken k (by omega) hk')
    simp [Call.owns, Call.slot, hne.symm]
  · obtain ⟨hne, hd⟩ := hold d hd t ht
    obtain ⟨k, hk, hk', rfl⟩ := h.own d hd t ht
    refine ⟨k, Nat.succ_le_of_lt (Nat.lt_of_le_of_ne hk fun hku => hne ?_), hk', rfl⟩
    rw [htn, hku]
  · refine h.value val' t ?_ k (by omega) hk' hmod
    exact hmem.imp (fun hm => (hold _ hm t rfl).2) (fun hm => (hold _ hm t rfl).2)
  · exact h.written val' t (hold _ hmem t rfl).2
  · exact (Calls.total_set_same hc (by rfl)).trans h.put
  · exact (Calls.total_set_same hc (by rfl)).trans h.got

/-- The call takes the front value, which it has copied. -/
theorem take (h : Inv q calls u) {val : α} (hc : calls[i]? = some (.pop (.casHead q.head val)))
    (hne : q.head ≠ q.tailUpdate) (hval : q.data q.head = some val) :
    Inv { q with head := (q.head + 1) % q.max, popped := q.popped ++ [val] }
      (calls.set i (.pop (.returned (some val)))) u := by
  have hlt : q.popped.length < u := by
    refine Nat.lt_of_le_of_ne h.popped_le fun heq => hne ?_
    rw [h.head_eq, h.update_eq, heq]
  have hlen : (q.popped ++ [val]).length = q.popped.length + 1 := by simp
  have hfront : q.accepted[q.popped.length]? = some val := by
    rw [h.data _ (Nat.le_refl _) hlt, ← h.head_eq, hval]
  have hroom := h.room
  have hold : ∀ d ∈ calls.set i (.pop (.returned (some val))), ∀ t, d.slot = some t → d ∈ calls := by
    intro d hd t ht
    rcases Calls.mem_set hd with rfl | ⟨j, -, hj⟩
    · cases ht
    · exact List.mem_of_getElem? hj
  refine { h with head_eq := ?_, popped_le := ?_, room := ?_, popped_prefix := ?_, data := fun k hk hk' => ?_,
                  taken := fun k hk hk' => ?_, own := fun d hd t ht => h.own d (hold d hd t ht) t ht,
                  value := fun val' t hmem => ?_, written := fun val' t hmem => ?_, put := ?_, got := ?_ }
  · rw [hlen, h.head_eq]
    exact succ_mod _ _
  · rw [hlen]
    exact hlt
  · rw [hlen]
    show q.accepted.length < q.popped.length + 1 + q.max
    omega
  · obtain ⟨rest, hrest⟩ := h.popped_prefix
    rw [← hrest, List.getElem?_append_right (Nat.le_refl _), Nat.sub_self] at hfront
    cases rest with
    | nil => cases hfront
    | cons v rest =>
      cases hfront
      refine ⟨rest, ?_⟩
      rw [← hrest, List.append_assoc, List.singleton_append]
  · rw [hlen] at hk
    exact h.data k (by omega) hk'
  · exact (Calls.total_set_same hc (by rfl)).trans (h.taken k hk hk')
  · exact h.value val' t (hmem.imp (hold _ · t rfl) (hold _ · t rfl))
  · exact h.written val' t (hold _ hmem t rfl)
  · exact (Calls.total_set_same hc (by rfl)).trans h.put
  · rw [Calls.total_set_add (m := {val}) hc (zero_add _).symm, h.got]
    rfl

end Inv

/-- With no push under way, the slots from `head_` to `tail_` have what was
taken in and not given out. -/
theorem slots_eq (h : Inv q calls u) (hquiet : ∀ c ∈ calls, c.slot = none) :
    q.slots = (q.accepted.drop q.popped.length).map some := by
  have hu : u = q.accepted.length := by
    by_contra hne
    have hone := h.taken u (Nat.le_refl u) (Nat.lt_of_le_of_ne h.le_accepted hne)
    have hzero : Calls.total (Call.owns (u % q.max)) calls = 0 := by
      refine Calls.total_eq_zero fun c hc => ?_
      simp [Call.owns, hquiet c hc]
    omega
  have hle := h.popped_le
  have hroom := h.room
  have hn : (q.tail + q.max - q.head) % q.max = q.accepted.length - q.popped.length := by
    have hd := distance (a := q.popped.length) (n := q.accepted.length - q.popped.length) h.max_pos (by omega)
    rw [Nat.add_sub_cancel' (by omega)] at hd
    rw [h.tail_eq, h.head_eq]
    exact hd
  refine List.ext_getElem? fun k => ?_
  rw [slots, hn, List.getElem?_map, List.getElem?_map, List.getElem?_drop]
  by_cases hk : k < q.accepted.length - q.popped.length
  · have hdata := h.data (q.popped.length + k) (by omega) (by omega)
    have hlt : q.popped.length + k < q.accepted.length := by omega
    rw [List.getElem?_eq_getElem hlt] at hdata ⊢
    rw [List.getElem?_range hk, h.head_eq, Option.map_some, Option.map_some, Nat.mod_add_mod, hdata]
  · rw [List.getElem?_eq_none (by rw [List.length_range]; omega), List.getElem?_eq_none (by omega)]
    rfl

/-! ## Runs -/

section Runs

variable [DecidableEq α]

theorem push3_inv {val : α} {pc pc' : PushPc} (h : Inv q calls u) (hc : calls[i]? = some (.push3 val pc))
    (hsteady : Steady ⟨q, calls⟩ (.move i ()) = true) (hm : q.push3 val pc = some (pc', q')) :
    ∃ u', Inv q' (calls.set i (.push3 val pc')) u' := by
  cases pc with
  | loadTail =>
    cases hm
    exact ⟨u, h.idle hc rfl rfl rfl rfl⟩
  | loadHead t =>
    simp only [push3, if_neg (Nat.ne_of_gt h.max_pos)] at hm
    split at hm
    · cases hm
      exact ⟨u, h.idle hc rfl rfl rfl rfl⟩
    · cases hm
      exact ⟨u, h.idle hc rfl rfl rfl rfl⟩
  | casTail t =>
    simp only [push3] at hm
    split at hm
    · rename_i ht
      subst ht
      cases hm
      simp [Steady, hc] at hsteady
      exact ⟨u, h.reserve hc hsteady⟩
    · cases hm
      exact ⟨u, h.idle hc rfl rfl rfl rfl⟩
  | write t =>
    simp only [push3] at hm
    split at hm
    · rename_i hraw
      simp [Steady, hc, hraw] at hsteady
    · cases hm
      exact ⟨u, h.write hc⟩
  | casUpdate t =>
    simp only [push3] at hm
    split at hm
    · rename_i ht
      subst ht
      cases hm
      exact ⟨u + 1, h.publish hc⟩
    · cases hm
      obtain ⟨hlt, hget⟩ := List.getElem?_eq_some_iff.1 hc
      rw [← hget, List.set_getElem_self]
      exact ⟨u, h⟩
  | returned ok => cases hm

theorem pop_inv {pc pc' : PopPc α} (h : Inv q calls u) (hc : calls[i]? = some (.pop pc))
    (hsteady : Steady ⟨q, calls⟩ (.move i ()) = true) (hm : q.pop pc = some (pc', q')) :
    ∃ u', Inv q' (calls.set i (.pop pc')) u' := by
  cases pc with
  | loadHead =>
    cases hm
    exact ⟨u, h.idle hc rfl rfl rfl rfl⟩
  | loadTail t =>
    simp only [pop] at hm
    split at hm
    · cases hm
      exact ⟨u, h.idle hc rfl rfl rfl rfl⟩
    · cases hm
      exact ⟨u, h.idle hc rfl rfl rfl rfl⟩
  | loadUpdate t =>
    simp only [pop] at hm
    split at hm
    · cases hm
      exact ⟨u, h.idle hc rfl rfl rfl rfl⟩
    · cases hm
      exact ⟨u, h.idle hc rfl rfl rfl rfl⟩
  | loadIndex t =>
    cases hm
    exact ⟨u, h.idle hc rfl rfl rfl rfl⟩
  | read t k =>
    simp only [pop] at hm
    split at hm
    · rename_i hraw
      simp [Steady, hc, hraw] at hsteady
    · cases hm
      exact ⟨u, h.idle hc rfl rfl rfl rfl⟩
  | casHead t val =>
    simp only [pop] at hm
    split at hm
    · rename_i ht
      subst ht
      cases hm
      simp [Steady, hc] at hsteady
      exact ⟨u, h.take hc hsteady.1 hsteady.2⟩
    · cases hm
      exact ⟨u, h.idle hc rfl rfl rfl rfl⟩
  | returned val => cases hm

theorem run_inv {size : ℕ} {storage : ℕ → Option α} {events : List (Event α)} {s : System α}
    (hsize : size + 1 < 2 ^ 64)
    (hc : Run.Along program.step (fun s e => Steady s e = true) (start size storage) events)
    (h : Run.run program.step (start size storage) events = some s) : ∃ u, Inv s.shared s.calls u := by
  refine Calls.run_along_invariant (fun q calls => ∃ u, Inv q calls u) (fun q calls op hi => ?_)
    (fun q calls i c input c' q' hi hci hsteady hm => ?_) ⟨0, inv_start hsize storage⟩ hc h
  · obtain ⟨u, hu⟩ := hi
    cases op with
    | push3 val => exact ⟨u, hu.enter rfl rfl rfl⟩
    | pop => exact ⟨u, hu.enter rfl rfl rfl⟩
  · obtain ⟨u, hu⟩ := hi
    cases c with
    | push3 val pc =>
      obtain ⟨⟨pc', r⟩, hp, he⟩ := Option.map_eq_some_iff.1 hm
      cases he
      exact push3_inv hu hci hsteady hp
    | pop pc =>
      obtain ⟨⟨pc', r⟩, hp, he⟩ := Option.map_eq_some_iff.1 hm
      cases he
      exact pop_inv hu hci hsteady hp

/-- **What goes through the ring.** In a run that finds an object wherever it assigns or
copies, and all of whose exchanges succeed on what their calls have found, nothing
undefined is done and the values given out are the first of those taken in, in that
order, each to one pop; and with no call under way the others are in the slots from
`head_` to `tail_`. -/
theorem conserved {size : ℕ} {storage : ℕ → Option α} {events : List (Event α)} {s : System α}
    (hsize : size + 1 < 2 ^ 64)
    (hc : Run.Along program.step (fun s e => Steady s e = true) (start size storage) events)
    (h : Run.run program.step (start size storage) events = some s) :
    s.shared.undefined = false ∧ s.shared.popped <+: s.shared.accepted ∧
      Calls.total Call.got s.calls = (s.shared.popped : Multiset α) ∧
      Calls.total Call.put s.calls = (s.shared.accepted : Multiset α) ∧
      ((∀ c ∈ s.calls, c.done = true) →
        s.shared.slots = (s.shared.accepted.drop s.shared.popped.length).map some) := by
  obtain ⟨u, hu⟩ := run_inv hsize hc h
  refine ⟨hu.defined, hu.popped_prefix, hu.got, hu.put, fun hdone => slots_eq hu fun c hcalls => ?_⟩
  have hd := hdone c hcalls
  cases c with
  | push3 val pc =>
    cases pc with
    | returned ok => rfl
    | _ => cases hd
  | pop pc => rfl

end Runs

/-- A call moves `n` times. -/
def moves (i n : ℕ) : List (Event ℕ) := List.replicate n (.move i ())

/-- In a ring of one slot two values are pushed and popped in turn, and a third
stays. -/
def inTurn : List (Event ℕ) :=
  [.call (.push3 1)] ++ moves 0 5 ++ [.call .pop] ++ moves 1 6 ++ [.call (.push3 2)] ++ moves 2 5 ++ [.call .pop] ++
    moves 3 6 ++ [.call (.push3 3)] ++ moves 4 5

theorem conserved_inTurn :
    ∃ s, Run.run program.step (start 1 fun _ => some 0) inTurn = some s ∧ s.shared.popped = [1, 2] ∧
      s.shared.slots = [some 3] ∧ s.shared.popped <+: s.shared.accepted := by
  have heval : (Run.run program.step (start 1 fun _ => some 0) inTurn).map
      (fun s => (s.shared.popped, s.shared.slots)) = some ([1, 2], [some 3]) := by decide +kernel
  obtain ⟨s, hs, hq⟩ := Option.map_eq_some_iff.1 heval
  obtain ⟨hpopped, hslots⟩ := Prod.mk.inj hq
  exact ⟨s, hs, hpopped, hslots, (conserved (by decide) (by decide +kernel) hs).2.1⟩

/-- A pop copies the first value and is overtaken by a full turn of the ring. -/
def overtaken : List (Event ℕ) :=
  [.call (.push3 1)] ++ moves 0 5 ++ [.call .pop] ++ moves 1 5 ++ [.call .pop] ++ moves 2 6 ++
    [.call (.push3 2)] ++ moves 3 5 ++ [.call .pop] ++ moves 4 6 ++ [.call (.push3 3)] ++ moves 5 5 ++ moves 1 1

/-- It gives the value out again, and the third value is lost. Where the slots hold no
objects, the first assignment is undefined; in a ring of the largest size, the first
division. -/
theorem popped_twice :
    (∃ s, Run.run program.step (start 1 fun _ => some 0) overtaken = some s ∧
      s.shared.accepted = [1, 2, 3] ∧ s.shared.popped = [1, 2, 1] ∧ s.shared.slots = [] ∧
      ∀ c ∈ s.calls, c.done = true) ∧
    (∃ s, Run.run program.step (start 1 fun _ => none) (.call (.push3 1) :: moves 0 4) = some s ∧
      s.shared.undefined = true) ∧
    ∃ s, Run.run program.step (start (2 ^ 64 - 1) fun _ => some 0) (.call (.push3 1) :: moves 0 2) = some s ∧
      s.shared.undefined = true := by
  refine ⟨?_, ?_, ?_⟩
  · have heval : (Run.run program.step (start 1 fun _ => some 0) overtaken).map
        (fun s => (s.shared.accepted, s.shared.popped, s.shared.slots, s.calls.all Call.done)) =
          some ([1, 2, 3], [1, 2, 1], [], true) := by decide +kernel
    obtain ⟨s, hs, hq⟩ := Option.map_eq_some_iff.1 heval
    simp only [Prod.mk.injEq] at hq
    obtain ⟨haccepted, hpopped, hslots, hdone⟩ := hq
    exact ⟨s, hs, haccepted, hpopped, hslots, List.all_eq_true.1 hdone⟩
  · have heval : (Run.run program.step (start 1 fun _ => none) (.call (.push3 1) :: moves 0 4)).map
        (fun s => s.shared.undefined) = some true := by decide +kernel
    exact Option.map_eq_some_iff.1 heval
  · have heval : (Run.run program.step (start (2 ^ 64 - 1) fun _ => some 0) (.call (.push3 1) :: moves 0 2)).map
        (fun s => s.shared.undefined) = some true := by decide +kernel
    exact Option.map_eq_some_iff.1 heval

end UlringQueue1

end Learncc
