/-
Lists linked through memory: `next` is the link word of the node at an
address, and the address 0 ends the list.
-/
import Mathlib.Logic.Function.Basic
import Mathlib.Data.List.Basic

/-- The list from `head` on has the nodes `l`. -/
def Linked (next : ℕ → ℕ) : ℕ → List ℕ → Prop
  | head, [] => head = 0
  | head, p :: l => head = p ∧ p ≠ 0 ∧ Linked next (next p) l

namespace Linked

variable {next next' : ℕ → ℕ} {head p q : ℕ} {l l' : List ℕ}

theorem eq_nil : ∀ {l : List ℕ}, Linked next 0 l → l = []
  | [], _ => rfl
  | _ :: _, h => absurd h.1.symm h.2.1

/-- A list that does not start with 0 has a first node. -/
theorem uncons : ∀ {l : List ℕ}, Linked next head l → head ≠ 0 → ∃ m, l = head :: m ∧ Linked next (next head) m
  | [], h, hne => absurd h hne
  | p :: m, h, _ => by
    obtain ⟨rfl, -, hm⟩ := h
    exact ⟨m, rfl, hm⟩

/-- Only the link words of the nodes matter. -/
theorem congr : ∀ {l : List ℕ} {head : ℕ}, Linked next head l → (∀ p ∈ l, next' p = next p) → Linked next' head l
  | [], _, h, _ => h
  | p :: m, _, h, hn => by
    obtain ⟨he, hp, hm⟩ := h
    refine ⟨he, hp, ?_⟩
    rw [hn p List.mem_cons_self]
    exact congr hm fun q hq => hn q (List.mem_cons_of_mem p hq)

theorem update (h : Linked next head l) {p v : ℕ} (hp : p ∉ l) : Linked (Function.update next p v) head l :=
  h.congr fun _ hq => Function.update_of_ne (ne_of_mem_of_not_mem hq hp) _ _

/-- A new node in front. -/
theorem push (h : Linked next head l) {p : ℕ} (hp : p ≠ 0) (hnot : p ∉ l) :
    Linked (Function.update next p head) p (p :: l) := by
  refine ⟨rfl, hp, ?_⟩
  rw [Function.update_self]
  exact h.update hnot

theorem ne_zero : ∀ {l : List ℕ} {head : ℕ}, Linked next head l → ∀ p ∈ l, p ≠ 0
  | [], _, _, _, hp => (List.not_mem_nil hp).elim
  | q :: m, _, h, p, hp => by
    obtain ⟨-, hq, hm⟩ := h
    rcases List.mem_cons.1 hp with rfl | hp
    · exact hq
    · exact ne_zero hm p hp

/-- The first node and the link words give all the nodes. -/
theorem unique : ∀ {l l' : List ℕ} {head : ℕ}, Linked next head l → Linked next head l' → l = l'
  | [], [], _, _, _ => rfl
  | [], p :: m, _, h, h' => absurd (h'.1.symm.trans h) h'.2.1
  | p :: m, [], _, h, h' => absurd (h.1.symm.trans h') h.2.1
  | p :: m, p' :: m', _, h, h' => by
    obtain ⟨rfl, -, hm⟩ := h
    obtain ⟨rfl, -, hm'⟩ := h'
    rw [unique hm hm']

theorem of_append : ∀ {l m : List ℕ} {head p : ℕ}, Linked next head (l ++ p :: m) → Linked next (next p) m
  | [], _, _, _, h => h.2.2
  | _ :: _, _, _, _, h => of_append h.2.2

/-- A list that ends comes to no node twice. -/
theorem nodup : ∀ {l : List ℕ} {head : ℕ}, Linked next head l → l.Nodup
  | [], _, _ => List.nodup_nil
  | p :: m, _, h => by
    obtain ⟨-, -, hm⟩ := h
    refine List.nodup_cons.2 ⟨fun hmem => ?_, nodup hm⟩
    obtain ⟨a, b, rfl⟩ := List.append_of_mem hmem
    have hlen := congrArg List.length (unique hm (of_append hm))
    rw [List.length_append, List.length_cons] at hlen
    omega

/-- A list cut off after `last`, and what `last` is linked to. -/
theorem append : ∀ {l m : List ℕ} {head last : ℕ}, Linked (Function.update next last 0) head l → last ∈ l →
    Linked next (next last) m → Linked next head (l ++ m)
  | [], _, _, _, _, hlast, _ => (List.not_mem_nil hlast).elim
  | p :: l, m, _, last, h, hlast, hm => by
    obtain ⟨hhead, hp, hl⟩ := h
    refine ⟨hhead, hp, ?_⟩
    by_cases heq : p = last
    · rw [heq, Function.update_self] at hl
      rw [heq, eq_nil hl]
      exact hm
    · rw [Function.update_of_ne heq] at hl
      refine append hl ?_ hm
      rcases List.mem_cons.1 hlast with he | hlast
      · exact absurd he.symm heq
      · exact hlast

theorem split (h : Linked next head l) (hp : p ∈ l) : ∃ a b, l = a ++ p :: b ∧ Linked next (next p) b := by
  obtain ⟨a, b, rfl⟩ := List.append_of_mem hp
  exact ⟨a, b, rfl, h.of_append⟩

/-- No two nodes are linked to the same, not even to 0. -/
theorem next_inj (h : Linked next head l) (hp : p ∈ l) (hq : q ∈ l) (he : next p = next q) : p = q := by
  obtain ⟨a, b, rfl, hb⟩ := h.split hp
  obtain ⟨c, d, hl, hd⟩ := h.split hq
  rw [he] at hb
  rw [hb.unique hd] at hl
  exact (List.cons.inj (List.append_inj' hl rfl).2).1

theorem next_ne_head (h : Linked next head l) (hp : p ∈ l) : next p ≠ head := by
  obtain ⟨a, b, rfl, hb⟩ := h.split hp
  intro he
  rw [he] at hb
  have hlen := congrArg List.length (h.unique hb)
  rw [List.length_append, List.length_cons] at hlen
  omega

theorem next_mem (h : Linked next head l) (hp : p ∈ l) (hne : next p ≠ 0) : next p ∈ l := by
  obtain ⟨a, b, rfl, hb⟩ := h.split hp
  obtain ⟨m, rfl, -⟩ := hb.uncons hne
  simp

theorem next_ne (h : Linked next head l) (hp : p ∈ l) : next p ≠ p := by
  obtain ⟨a, b, rfl, hb⟩ := h.split hp
  intro he
  rw [he] at hb
  obtain ⟨m, rfl, -⟩ := hb.uncons (h.ne_zero p hp)
  exact (List.nodup_cons.1 (List.nodup_append.1 h.nodup).2.1).1 List.mem_cons_self

/-- The node that is linked to 0 is the last. -/
theorem getLast_eq (h : Linked next head l) (hp : p ∈ l) (hend : next p = 0) : l.getLast? = some p := by
  obtain ⟨a, b, rfl, hb⟩ := h.split hp
  rw [hend] at hb
  rw [hb.eq_nil]
  exact List.getLast?_concat ..

theorem cut {b : List ℕ} : ∀ {a : List ℕ} {head : ℕ}, Linked next head (a ++ p :: b) →
    Linked (Function.update next p 0) head (a ++ [p])
  | [], _, h => ⟨h.1, h.2.1, Function.update_self ..⟩
  | x :: a, _, h => by
    have hne : x ≠ p := by
      rintro rfl
      exact (List.nodup_cons.1 h.nodup).1 (by simp)
    obtain ⟨hhead, hx, hrest⟩ := h
    refine ⟨hhead, hx, ?_⟩
    rw [Function.update_of_ne hne]
    exact cut hrest

/-- A new node after `p`. -/
theorem insert (h : Linked next head l) (hp : p ∈ l) (hq : q ≠ 0) (hnot : q ∉ l) :
    ∃ l', Linked (Function.update (Function.update next p q) q (next p)) head l' ∧ l'.Perm (q :: l) := by
  obtain ⟨a, b, rfl, hb⟩ := h.split hp
  have hpb : p ∉ b := (List.nodup_cons.1 (List.nodup_append.1 h.nodup).2.1).1
  simp only [List.mem_append, List.mem_cons, not_or] at hnot
  obtain ⟨hqa, hqp, hqb⟩ := hnot
  have hlast : p ∈ a ++ [p] := by simp
  have hperm : ((a ++ [p]) ++ q :: b).Perm (q :: ((a ++ [p]) ++ b)) := List.perm_middle
  refine ⟨(a ++ [p]) ++ q :: b, append ?_ hlast ?_, by simpa using hperm⟩
  · refine h.cut.congr fun n hn => ?_
    by_cases hnp : n = p
    · rw [hnp, Function.update_self, Function.update_self]
    · have hnq : n ≠ q := by
        rintro rfl
        rcases List.mem_append.1 hn with hn | hn
        · exact hqa hn
        · exact hqp (List.mem_singleton.1 hn)
      rw [Function.update_of_ne hnp, Function.update_of_ne hnp, Function.update_of_ne hnq, Function.update_of_ne hnp]
  · rw [Function.update_of_ne (Ne.symm hqp), Function.update_self]
    refine ⟨rfl, hq, ?_⟩
    rw [Function.update_self]
    exact hb.congr fun n hn => by
      rw [Function.update_of_ne (ne_of_mem_of_not_mem hn hqb), Function.update_of_ne (ne_of_mem_of_not_mem hn hpb)]

/-- The node after `p` taken out. -/
theorem remove (h : Linked next head l) (hp : p ∈ l) (hq : next p ≠ 0) :
    ∃ l', Linked (Function.update next p (next (next p))) head l' ∧ l.Perm (next p :: l') := by
  obtain ⟨a, b, rfl, hb⟩ := h.split hp
  have hpb : p ∉ b := (List.nodup_cons.1 (List.nodup_append.1 h.nodup).2.1).1
  obtain ⟨b, rfl, hb'⟩ := hb.uncons hq
  have hlast : p ∈ a ++ [p] := by simp
  have hperm : ((a ++ [p]) ++ next p :: b).Perm (next p :: ((a ++ [p]) ++ b)) := List.perm_middle
  refine ⟨(a ++ [p]) ++ b, append ?_ hlast ?_, by simpa using hperm⟩
  · rw [Function.update_idem]
    exact h.cut
  · rw [Function.update_self]
    exact hb'.update fun hmem => hpb (List.mem_cons_of_mem _ hmem)

end Linked
