/-
`threadsafe_stack_uk` as a stack: a push takes effect when its exchange puts the
node at the head, a pop when its exchange takes the head away, before it has the
value, or when it finds no head. In the order in which they do so, the calls are
those of a stack.
-/
import Learncc.Public.StackUkRun
import Learncc.Lib.Effect
import Learncc.Lib.LinkedStack

namespace Learncc.ThreadsafeStackUk

variable {α : Type} {s s' : ThreadsafeStackUk α} {calls : List (Call α)} {owner : ℕ → Owner} {stack pend : List ℕ}
  {c c' : Call α} {i n : ℕ} {value : α} {choice : Choice} {heap : ℕ → Option (StackNode α)}

/-- The value of a push. -/
def Op.pushed : Op α → Option α
  | .push value => some value
  | .pop => none

namespace Call

def op : Call α → Op α
  | .push value _ => .push value
  | .pop _ => .pop

def answer : Call α → Option (Option α)
  | .push _ .returned => some none
  | .pop (.returned res) => some res
  | _ => none

/-- The answer of a call that has taken effect. A pop that is about to swap the
value out has taken it. -/
def effect (s : ThreadsafeStackUk α) : Call α → Option (Option α)
  | .push _ .returned | .pop .leaveEmpty => some none
  | .pop (.swap old) => some (valueOf s.heap old)
  | .pop (.check _ res) | .pop (.exchange _ res) | .pop (.dec _ res _) | .pop (.readDelete _ res _)
  | .pop (.delete _ res _ _) | .pop (.walk _ res _ _) | .pop (.chainLoad _ res _ _) | .pop (.chainStore _ res _ _ _)
  | .pop (.chainCas _ res _ _) | .pop (.deleteOld _ res) | .pop (.leave res) | .pop (.returned res) => some res
  | _ => none

end Call

/-- The values from the head on. -/
def Holds (s : ThreadsafeStackUk α) (l : List α) : Prop := Stored (nextOf s.heap) (valueOf s.heap) s.head l

def Represents (s : ThreadsafeStackUk α) (calls : List (Call α)) (l : List α) : Prop := Ok s calls ∧ s.Holds l

/-! ## What a move does -/

/-- Nodes change at the mover's own and at new ones only. -/
def Keeps (owner : ℕ → Owner) (i : ℕ) (heap heap' : ℕ → Option (StackNode α)) : Prop :=
  ∀ n, owner n = .call i ∨ owner n = .free ∨ heap' n = heap n

theorem Keeps.refl (heap : ℕ → Option (StackNode α)) : Keeps owner i heap heap := fun _ => .inr (.inr rfl)

theorem Keeps.update {b : Option (StackNode α)} (h : owner n = .call i ∨ owner n = .free) :
    Keeps owner i heap (Function.update heap n b) := by
  intro m
  by_cases hmn : m = n
  · rw [hmn]
    rcases h with h | h
    · exact .inl h
    · exact .inr (.inl h)
  · exact .inr (.inr (Function.update_of_ne hmn _ _))

theorem push_effect {pc pc' : PushPc} (h : Inv s calls owner stack pend) (hc : calls[i]? = some (.push value pc))
    (hm : s.push value choice pc = some (pc', s')) : Keeps owner i s.heap s'.heap ∧
      (Call.effect s' (.push value pc') = Call.effect s (.push value pc) ∧ s'.head = s.head ∨
        pc' = .returned ∧ Call.effect s (.push value pc) = none ∧
          ∃ n, n ≠ 0 ∧ valueOf s.heap n = some value ∧ nextOf s.heap n = s.head ∧ s' = { s with head := n }) := by
  cases pc with
  | alloc =>
    simp only [push] at hm
    split at hm
    · rename_i ha
      cases hm
      exact ⟨Keeps.update (.inr ((h.allocated _).1 ha.2)), .inl ⟨rfl, rfl⟩⟩
    · cases hm
  | load n =>
    obtain ⟨l, hp, -, hl, -, hsome⟩ := h.nodes hc
    obtain ⟨rfl, -⟩ := hp
    obtain ⟨node, hnode⟩ := hsome n (List.mem_singleton.2 rfl)
    simp only [push, hnode] at hm
    cases hm
    exact ⟨Keeps.update (.inl ((hl n).1 (List.mem_singleton.2 rfl))), .inl ⟨rfl, rfl⟩⟩
  | cas n =>
    obtain ⟨l, hp, -, hl, hne, hsome⟩ := h.nodes hc
    obtain ⟨rfl, hv⟩ := hp
    have hn : n ∈ [n] := List.mem_singleton.2 rfl
    obtain ⟨node, hnode⟩ := hsome n hn
    simp only [push, hnode] at hm
    split at hm
    · rename_i hhead
      cases hm
      exact ⟨Keeps.refl _, .inr ⟨rfl, rfl, n, hne n hn, hv, by rw [nextOf_some hnode, hhead.1], rfl⟩⟩
    · cases hm
      exact ⟨Keeps.update (.inl ((hl n).1 hn)), .inl ⟨rfl, rfl⟩⟩
  | returned => cases hm
  | undefined => cases hm

theorem effect_deleteNodes (old : ℕ) (res : Option α) (n : ℕ) :
    Call.effect s (.pop (deleteNodes old res n)) = some res := by
  unfold deleteNodes
  split <;> rfl

theorem effect_chained (res : Option α) (after : Option ℕ) : Call.effect s (.pop (chained res after)) = some res := by
  cases after <;> rfl

theorem pop_effect {pc pc' : PopPc α} (h : Inv s calls owner stack pend) (hc : calls[i]? = some (.pop pc))
    (hm : s.pop choice pc = some (pc', s')) : Keeps owner i s.heap s'.heap ∧
      (Call.effect s' (.pop pc') = Call.effect s (.pop pc) ∧ s'.head = s.head ∨
        Call.effect s (.pop pc) = none ∧
          (s.head = 0 ∧ pc' = .leaveEmpty ∧ s'.head = 0 ∨
            s.head ≠ 0 ∧ pc' = .swap s.head ∧ s' = { s with head := nextOf s.heap s.head })) := by
  cases pc with
  | enter =>
    cases hm
    exact ⟨Keeps.refl _, .inl ⟨rfl, rfl⟩⟩
  | load =>
    simp only [pop] at hm
    split at hm
    · rename_i hempty
      cases hm
      exact ⟨Keeps.refl _, .inr ⟨rfl, .inl ⟨hempty, rfl, hempty⟩⟩⟩
    · cases hm
      exact ⟨Keeps.refl _, .inl ⟨rfl, rfl⟩⟩
  | leaveEmpty =>
    cases hm
    exact ⟨Keeps.refl _, .inl ⟨rfl, rfl⟩⟩
  | readNext old =>
    obtain ⟨node, hnode⟩ := held_allocated h hc rfl
    simp only [pop, hnode] at hm
    cases hm
    exact ⟨Keeps.refl _, .inl ⟨rfl, rfl⟩⟩
  | cas old next =>
    have hallocated := (h.held _ (List.mem_of_getElem? hc) old rfl).allocated
    simp only [pop] at hm
    split at hm
    · rename_i hhead
      obtain ⟨rfl, -⟩ := hhead
      cases hm
      have hne : s.head ≠ 0 := by
        intro hzero
        rw [hzero] at hallocated
        exact hallocated h.null
      obtain ⟨rest, hstack, -⟩ := h.stack_linked.uncons hne
      have howner : owner s.head = .stack := by
        rw [← h.mem_stack, hstack]
        exact List.mem_cons_self
      rw [h.front _ _ (List.mem_of_getElem? hc) howner]
      exact ⟨Keeps.refl _, .inr ⟨rfl, .inr ⟨hne, rfl, rfl⟩⟩⟩
    · cases hm
      exact ⟨Keeps.refl _, .inl ⟨rfl, rfl⟩⟩
  | swap old =>
    obtain ⟨l, hp, -, hl, -, hsome⟩ := h.nodes hc
    obtain ⟨rfl, -⟩ := hp
    have hn : old ∈ [old] := List.mem_singleton.2 rfl
    obtain ⟨node, hnode⟩ := hsome old hn
    simp only [pop, hnode] at hm
    cases hm
    refine ⟨Keeps.update (.inl ((hl old).1 hn)), .inl ⟨?_, rfl⟩⟩
    exact congrArg some (valueOf_some hnode).symm
  | check old res =>
    simp only [pop] at hm
    split at hm <;> (cases hm; exact ⟨Keeps.refl _, .inl ⟨rfl, rfl⟩⟩)
  | exchange old res =>
    cases hm
    exact ⟨Keeps.refl _, .inl ⟨rfl, rfl⟩⟩
  | dec old res toDelete =>
    cases hm
    refine ⟨Keeps.refl _, .inl ⟨?_, rfl⟩⟩
    split
    · exact effect_deleteNodes old res toDelete
    · split <;> rfl
  | readDelete old res n =>
    obtain ⟨l, hp, -, hl, -, hsome⟩ := h.nodes hc
    obtain ⟨hne, m, rfl, hlinked⟩ := hp
    obtain ⟨m', rfl, -⟩ := hlinked.uncons hne
    obtain ⟨node, hnode⟩ := hsome n (by simp)
    simp only [pop, hnode] at hm
    cases hm
    exact ⟨Keeps.refl _, .inl ⟨rfl, rfl⟩⟩
  | delete old res n next =>
    obtain ⟨l, hp, -, hl, -, hsome⟩ := h.nodes hc
    obtain ⟨m, rfl, -⟩ := hp
    obtain ⟨node, hnode⟩ := hsome n (by simp)
    simp only [pop, hnode] at hm
    cases hm
    exact ⟨Keeps.update (.inl ((hl n).1 (by simp))), .inl ⟨effect_deleteNodes old res next, rfl⟩⟩
  | walk old res first last =>
    obtain ⟨l, hp, -, hl, -, hsome⟩ := h.nodes hc
    obtain ⟨m, rfl, -, hlast⟩ := hp
    obtain ⟨node, hnode⟩ := hsome last (List.mem_cons_of_mem _ hlast)
    simp only [pop, hnode] at hm
    split at hm <;> (cases hm; exact ⟨Keeps.refl _, .inl ⟨rfl, rfl⟩⟩)
  | chainLoad after res first last =>
    cases hm
    exact ⟨Keeps.refl _, .inl ⟨rfl, rfl⟩⟩
  | chainStore after res first last next =>
    obtain ⟨l, hp, -, hl, -, hsome⟩ := h.nodes hc
    obtain ⟨m, rfl, -, hlast⟩ := hp
    obtain ⟨node, hnode⟩ := hsome last (List.mem_append_right _ hlast)
    simp only [pop, hnode] at hm
    cases hm
    exact ⟨Keeps.update (.inl ((hl last).1 (List.mem_append_right _ hlast))), .inl ⟨rfl, rfl⟩⟩
  | chainCas after res first last =>
    obtain ⟨l, hp, -, hl, -, hsome⟩ := h.nodes hc
    obtain ⟨m, rfl, -, hlast⟩ := hp
    obtain ⟨node, hnode⟩ := hsome last (List.mem_append_right _ hlast)
    simp only [pop, hnode] at hm
    split at hm
    · cases hm
      exact ⟨Keeps.refl _, .inl ⟨effect_chained res after, rfl⟩⟩
    · cases hm
      exact ⟨Keeps.update (.inl ((hl last).1 (List.mem_append_right _ hlast))), .inl ⟨rfl, rfl⟩⟩
  | deleteOld old res =>
    obtain ⟨l, hp, -, hl, -, hsome⟩ := h.nodes hc
    obtain rfl : l = [old] := hp
    obtain ⟨node, hnode⟩ := hsome old (by simp)
    simp only [pop, hnode] at hm
    cases hm
    exact ⟨Keeps.update (.inl ((hl old).1 (by simp))), .inl ⟨rfl, rfl⟩⟩
  | leave res =>
    cases hm
    exact ⟨Keeps.refl _, .inl ⟨rfl, rfl⟩⟩
  | returned res => cases hm
  | undefined => cases hm

/-! ## The stack -/

theorem Keeps.of_stack (hinv : Inv s calls owner stack pend) (hkeeps : Keeps owner i s.heap s'.heap) (hn : n ∈ stack) :
    s'.heap n = s.heap n := by
  have howner := (hinv.mem_stack n).1 hn
  rcases hkeeps n with hmine | hfree | hsame
  · rw [howner] at hmine
    cases hmine
  · rw [howner] at hfree
    cases hfree
  · exact hsame

/-- A move that leaves the head where it is leaves the stack as it is. -/
theorem Holds.keep {l : List α} (h : s.Holds l) (hinv : Inv s calls owner stack pend)
    (hkeeps : Keeps owner i s.heap s'.heap) (hhead : s'.head = s.head) : s'.Holds l := by
  unfold Holds
  rw [hhead]
  refine Stored.congr h hinv.stack_linked fun n hn => ?_
  have hsame := hkeeps.of_stack hinv hn
  exact ⟨nextOf_congr hsame, valueOf_congr hsame⟩

/-- A call whose effect is read off a node owns the node. -/
theorem effect_congr (hinv : Inv s calls owner stack pend) (hkeeps : Keeps owner i s.heap s'.heap) {j : ℕ} {d : Call α}
    (hji : j ≠ i) (hd : calls[j]? = some d) : d.effect s' = d.effect s := by
  cases d with
  | push value pc => cases pc <;> rfl
  | pop pc =>
    cases pc with
    | swap old =>
      obtain ⟨l, hp, -, hl⟩ := hinv.own j _ hd
      obtain ⟨rfl, -⟩ := hp
      have howner := (hl old).1 (List.mem_singleton.2 rfl)
      simp only [Call.effect]
      rcases hkeeps old with hmine | hfree | hsame
      · rw [howner] at hmine
        exact absurd (Owner.call.inj hmine) hji
      · rw [howner] at hfree
        cases hfree
      · rw [valueOf_congr hsame]
    | _ => rfl

theorem represents_push {pc pc' : PushPc} {l : List α} (hinv : Inv s calls owner stack pend) (hl : s.Holds l)
    (hc : calls[i]? = some (.push value pc)) (hm : s.push value choice pc = some (pc', s')) :
    Call.effect s' (.push value pc') = Call.effect s (.push value pc) ∧ s'.Holds l ∨
      Call.effect s (.push value pc) = none ∧ ∃ r l', Call.effect s' (.push value pc') = some r ∧
        Lifo (some value) l r l' ∧ s'.Holds l' := by
  obtain ⟨hkeeps, ⟨hsame, hhead⟩ | ⟨rfl, hnone, n, hne, hv, hnext, rfl⟩⟩ := push_effect hinv hc hm
  · exact .inl ⟨hsame, hl.keep hinv hkeeps hhead⟩
  · exact .inr ⟨hnone, none, value :: l, rfl, .push value l, Stored.push hl hne hnext hv⟩

theorem represents_pop {pc pc' : PopPc α} {l : List α} (hinv : Inv s calls owner stack pend) (hl : s.Holds l)
    (hc : calls[i]? = some (.pop pc)) (hm : s.pop choice pc = some (pc', s')) :
    Call.effect s' (.pop pc') = Call.effect s (.pop pc) ∧ s'.Holds l ∨
      Call.effect s (.pop pc) = none ∧ ∃ r l', Call.effect s' (.pop pc') = some r ∧ Lifo none l r l' ∧ s'.Holds l' := by
  obtain ⟨hkeeps, ⟨hsame, hhead⟩ | ⟨hnone, ⟨hempty, rfl, hempty'⟩ | ⟨hne, rfl, rfl⟩⟩⟩ := pop_effect hinv hc hm
  · exact .inl ⟨hsame, hl.keep hinv hkeeps hhead⟩
  · have hkept := hl.keep hinv hkeeps (hempty'.trans hempty.symm)
    have hnil : l = [] := by
      unfold Holds at hl
      rw [hempty] at hl
      exact hl.eq_nil
    rw [hnil] at hkept ⊢
    exact .inr ⟨hnone, none, [], rfl, .empty, hkept⟩
  · obtain ⟨v, rest, rfl, hv, hrest⟩ := Stored.pop hl hne
    exact .inr ⟨hnone, some v, rest, congrArg some hv, .pop v rest, hrest⟩

theorem atomicIn : Calls.AtomicIn (program (α := α)) Call.op Call.effect Call.answer (fun o => Lifo o.pushed)
    Represents where
  enter o := by cases o <;> exact ⟨rfl, fun _ => rfl⟩
  answered := fun {s c r} hr => by
    cases c with
    | push value pc =>
      cases pc with
      | returned => exact hr
      | _ => cases hr
    | pop pc =>
      cases pc with
      | returned res => exact hr
      | _ => cases hr
  call := fun {s calls l o} h => by
    obtain ⟨⟨owner, stack, pend, hinv⟩, hl⟩ := h
    refine ⟨⟨owner, stack, pend, ?_⟩, hl⟩
    cases o <;> exact hinv.enter (fun l => Iff.rfl) rfl rfl rfl rfl
  others := fun {s calls l i c choice c' s'} h hc hm j d hji hd => by
    obtain ⟨⟨owner, stack, pend, hinv⟩, -⟩ := h
    cases c with
    | push value pc =>
      obtain ⟨⟨pc', t⟩, hp, he⟩ := Option.map_eq_some_iff.1 hm
      cases he
      exact effect_congr hinv (push_effect hinv hc hp).1 hji hd
    | pop pc =>
      obtain ⟨⟨pc', t⟩, hp, he⟩ := Option.map_eq_some_iff.1 hm
      cases he
      exact effect_congr hinv (pop_effect hinv hc hp).1 hji hd
  move := fun {s calls l i c choice c' s'} h hc hm => by
    obtain ⟨⟨owner, stack, pend, hinv⟩, hl⟩ := h
    cases c with
    | push value pc =>
      obtain ⟨⟨pc', t⟩, hp, he⟩ := Option.map_eq_some_iff.1 hm
      cases he
      have hok := push_inv hinv hc hp
      refine ⟨rfl, ?_⟩
      rcases represents_push hinv hl hc hp with ⟨hsame, hl⟩ | ⟨hnone, r, l', hr, hspec, hl⟩
      · exact .inl ⟨hsame, hok, hl⟩
      · exact .inr ⟨hnone, r, l', hr, hspec, hok, hl⟩
    | pop pc =>
      obtain ⟨⟨pc', t⟩, hp, he⟩ := Option.map_eq_some_iff.1 hm
      cases he
      have hok := pop_inv hinv hc hp
      refine ⟨rfl, ?_⟩
      rcases represents_pop hinv hl hc hp with ⟨hsame, hl⟩ | ⟨hnone, r, l', hr, hspec, hl⟩
      · exact .inl ⟨hsame, hok, hl⟩
      · exact .inr ⟨hnone, r, l', hr, hspec, hok, hl⟩

/-- **A stack.** In every run the calls have an order, consistent with real time,
in which each is a push or a pop of one stack with the answer it returns, and
what the nodes from the head on hold is that stack. -/
theorem deferred_lifo {events : List (Event α)} {t : System α} (h : Run.run program.step start events = some t) :
    ∃ log l, t.shared.Holds l ∧
      Calls.Linearized program (Calls.View.plain Call.op Call.answer) (fun o => Lifo o.pushed) start [] events t log
        l := by
  have hstart : Represents (init : ThreadsafeStackUk α) [] [] := ⟨⟨_, _, _, inv_start⟩, Stored.nil⟩
  obtain ⟨log, l, hrep, hlin⟩ := atomicIn.linearized hstart h
  exact ⟨log, l, hrep.2, hlin⟩

theorem deferred_lifo_pushPop :
    ∃ t, Run.run program.step start pushPop = some t ∧
      t.calls = [.push 5 .returned, .pop (.returned (some 5)), .push 6 .returned] ∧
      ∃ log l, t.shared.Holds l ∧ Calls.Linearized program (Calls.View.plain Call.op Call.answer)
        (fun o => Lifo o.pushed) start [] pushPop t log l := by
  have heval : (Run.run program.step start pushPop).map (fun t => t.calls) =
      some [.push 5 .returned, .pop (.returned (some 5)), .push 6 .returned] := by decide +kernel
  obtain ⟨t, ht, hcalls⟩ := Option.map_eq_some_iff.1 heval
  exact ⟨t, ht, hcalls, deferred_lifo ht⟩

end Learncc.ThreadsafeStackUk
