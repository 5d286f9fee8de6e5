/-
Stacks, and stacks kept as a list linked through memory: `Stored` says that the
nodes from `head` on hold the values of a stack, the top one first.
-/
import Learncc.Lib.Linked

variable {α : Type*}

/-- A push of a value is answered with nothing, a pop (of no value) with the value
on top, or with nothing when there is none. -/
inductive Lifo : Option α → List α → Option α → List α → Prop
  | push (v : α) (l : List α) : Lifo (some v) l none (v :: l)
  | pop (v : α) (l : List α) : Lifo none (v :: l) (some v) l
  | empty : Lifo none [] none []

def Stored (next : ℕ → ℕ) (value : ℕ → Option α) (head : ℕ) (l : List α) : Prop :=
  ∃ nodes, Linked next head nodes ∧ nodes.map value = l.map some

namespace Stored

variable {next next' : ℕ → ℕ} {value value' : ℕ → Option α} {head n : ℕ} {l : List α} {v : α} {nodes : List ℕ}

theorem nil : Stored next value 0 [] := ⟨[], rfl, rfl⟩

theorem eq_nil (h : Stored next value 0 l) : l = [] := by
  obtain ⟨nodes, hlinked, hvalues⟩ := h
  rw [hlinked.eq_nil] at hvalues
  exact List.map_eq_nil_iff.1 hvalues.symm

/-- Only the nodes of the stack matter. -/
theorem congr (h : Stored next value head l) (hnodes : Linked next head nodes)
    (hsame : ∀ n ∈ nodes, next' n = next n ∧ value' n = value n) : Stored next' value' head l := by
  obtain ⟨m, hm, hvalues⟩ := h
  obtain rfl := hm.unique hnodes
  refine ⟨m, hm.congr fun n hn => (hsame n hn).1, ?_⟩
  rw [← hvalues]
  exact List.map_congr_left fun n hn => (hsame n hn).2

theorem push (h : Stored next value head l) (hn : n ≠ 0) (hnext : next n = head) (hv : value n = some v) :
    Stored next value n (v :: l) := by
  obtain ⟨m, hm, hvalues⟩ := h
  refine ⟨n :: m, ⟨rfl, hn, ?_⟩, ?_⟩
  · rw [hnext]
    exact hm
  · rw [List.map_cons, hv, hvalues]
    rfl

theorem pop (h : Stored next value head l) (hne : head ≠ 0) :
    ∃ v rest, l = v :: rest ∧ value head = some v ∧ Stored next value (next head) rest := by
  obtain ⟨m, hm, hvalues⟩ := h
  obtain ⟨m, rfl, hrest⟩ := hm.uncons hne
  cases l with
  | nil => cases hvalues
  | cons v rest =>
    obtain ⟨hv, hvalues⟩ := List.cons.inj hvalues
    exact ⟨v, rest, rfl, hv, m, hrest, hvalues⟩

end Stored
