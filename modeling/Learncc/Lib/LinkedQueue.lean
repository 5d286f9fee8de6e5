/-
Queues, and queues kept as a list linked through memory: `Between` says that the
nodes from `head` on, up to `tail` and without it, hold the values of a queue.
-/
import Learncc.Lib.Linked

variable {α : Type*}

/-- A push of a value is answered with nothing, a pop (of no value) with the value
in front, or with nothing when there is none. -/
inductive Fifo : Option α → List α → Option α → List α → Prop
  | push (v : α) (l : List α) : Fifo (some v) l none (l ++ [v])
  | pop (v : α) (l : List α) : Fifo none (v :: l) (some v) l
  | empty : Fifo none [] none []

/-- From `head` the links lead through the nodes `l` to `tail`, for the first time. -/
def LinkPath (next : ℕ → ℕ) : ℕ → List ℕ → ℕ → Prop
  | head, [], tail => head = tail
  | head, p :: l, tail => head = p ∧ p ≠ tail ∧ LinkPath next (next p) l tail

namespace LinkPath

variable {next next' : ℕ → ℕ} {head tail p : ℕ} {l m : List ℕ}

theorem unique : ∀ {l m : List ℕ} {head : ℕ}, LinkPath next head l tail → LinkPath next head m tail → l = m
  | [], [], _, _, _ => rfl
  | [], p :: m, _, h, h' => absurd (h'.1.symm.trans h) h'.2.1
  | p :: l, [], _, h, h' => absurd (h.1.symm.trans h') h.2.1
  | p :: l, p' :: m, _, h, h' => by
    obtain ⟨rfl, -, hl⟩ := h
    obtain ⟨rfl, -, hm⟩ := h'
    rw [unique hl hm]

theorem congr : ∀ {l : List ℕ} {head : ℕ}, LinkPath next head l tail → (∀ p ∈ l, next' p = next p) →
    LinkPath next' head l tail
  | [], _, h, _ => h
  | p :: l, _, h, hn => by
    obtain ⟨he, hne, hl⟩ := h
    refine ⟨he, hne, ?_⟩
    rw [hn p List.mem_cons_self]
    exact congr hl fun q hq => hn q (List.mem_cons_of_mem p hq)

/-- The path goes on to a node it has not been at. -/
theorem snoc : ∀ {l : List ℕ} {head : ℕ}, LinkPath next head l tail → next tail = p → p ≠ tail → p ∉ l →
    LinkPath next head (l ++ [tail]) p
  | [], _, h, hnext, hp, _ => ⟨h, hp.symm, hnext⟩
  | q :: l, _, h, hnext, hp, hnot => by
    obtain ⟨he, -, hl⟩ := h
    exact ⟨he, fun hqp => hnot (by rw [hqp]; exact List.mem_cons_self),
      snoc hl hnext hp fun hmem => hnot (List.mem_cons_of_mem q hmem)⟩

/-- A list that ends leads to each of its nodes. -/
theorem of_linked : ∀ {l m : List ℕ} {head : ℕ}, Linked next head (l ++ tail :: m) → LinkPath next head l tail
  | [], _, _, h => h.1
  | p :: l, m, _, h => by
    have hnodup := h.nodup
    obtain ⟨rfl, -, hl⟩ := h
    refine ⟨rfl, fun he => (List.nodup_cons.1 hnodup).1 ?_, of_linked hl⟩
    rw [he]
    exact List.mem_append_right _ List.mem_cons_self

end LinkPath

def Between (next : ℕ → ℕ) (value : ℕ → Option α) (head tail : ℕ) (l : List α) : Prop :=
  ∃ nodes, LinkPath next head nodes tail ∧ nodes.map value = l.map some

namespace Between

variable {next next' : ℕ → ℕ} {value value' : ℕ → Option α} {head tail p : ℕ} {l : List α} {v : α} {nodes : List ℕ}

theorem nil : Between next value tail tail [] := ⟨[], rfl, rfl⟩

theorem eq_nil (h : Between next value tail tail l) : l = [] := by
  obtain ⟨nodes, hpath, hvalues⟩ := h
  cases hpath.unique (m := []) rfl
  exact List.map_eq_nil_iff.1 hvalues.symm

/-- Only the nodes before `tail` matter. -/
theorem congr (h : Between next value head tail l) (hnodes : LinkPath next head nodes tail)
    (hsame : ∀ n ∈ nodes, next' n = next n ∧ value' n = value n) : Between next' value' head tail l := by
  obtain ⟨m, hm, hvalues⟩ := h
  obtain rfl := hm.unique hnodes
  refine ⟨m, hm.congr fun n hn => (hsame n hn).1, ?_⟩
  rw [← hvalues]
  exact List.map_congr_left fun n hn => (hsame n hn).2

theorem snoc (h : Between next value head tail l) (hnodes : LinkPath next head nodes tail) (hv : value tail = some v)
    (hnext : next tail = p) (hp : p ≠ tail) (hnot : p ∉ nodes) : Between next value head p (l ++ [v]) := by
  obtain ⟨m, hm, hvalues⟩ := h
  obtain rfl := hm.unique hnodes
  refine ⟨m ++ [tail], hm.snoc hnext hp hnot, ?_⟩
  rw [List.map_append, List.map_append, hvalues, List.map_singleton, List.map_singleton, hv]

theorem pop (h : Between next value head tail l) (hne : head ≠ tail) :
    ∃ v rest, l = v :: rest ∧ value head = some v ∧ Between next value (next head) tail rest := by
  obtain ⟨m, hm, hvalues⟩ := h
  cases m with
  | nil => exact absurd hm hne
  | cons p m =>
    obtain ⟨rfl, -, hrest⟩ := hm
    cases l with
    | nil => cases hvalues
    | cons v rest =>
      obtain ⟨hv, hvalues⟩ := List.cons.inj hvalues
      exact ⟨v, rest, rfl, hv, m, hrest, hvalues⟩

end Between
