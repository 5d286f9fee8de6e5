/-
Commands: code that runs on a state and answers or throws, or never comes
back. A command that throws has changed the state all the same.

`Keeps R x` says that `x` moves the state along `R` however it ends; for a
reflexive and transitive `R` it passes through sequence, `try` and cleanup, so
it is proved of the primitive commands alone. The lemmas `bind_eq_some_iff` and
`tryCatch_eq_some_iff` take a run apart where more is to be said.
-/
import Mathlib.Order.Defs.Unbundled

/-- What a command does to a state: `none` if it never ends. -/
def Command (σ ε α : Type) : Type := σ → Option (Except ε α × σ)

namespace Command

variable {σ ε α β : Type} {R : σ → σ → Prop}

protected def pure (a : α) : Command σ ε α := fun s => some (.ok a, s)

protected def throw (e : ε) : Command σ ε α := fun s => some (.error e, s)

protected def bind (x : Command σ ε α) (f : α → Command σ ε β) : Command σ ε β := fun s =>
  (x s).bind fun p =>
    match p.1 with
    | .ok a => f a p.2
    | .error e => some (.error e, p.2)

protected def tryCatch (x : Command σ ε α) (f : ε → Command σ ε α) : Command σ ε α := fun s =>
  (x s).bind fun p =>
    match p.1 with
    | .ok a => some (.ok a, p.2)
    | .error e => f e p.2

instance : Monad (Command σ ε) where
  pure := Command.pure
  bind := Command.bind

instance : MonadExceptOf ε (Command σ ε) where
  throw := Command.throw
  tryCatch := Command.tryCatch

/-- Change the state. -/
def modify (f : σ → σ) : Command σ ε Unit := fun s => some (.ok (), f s)

/-- Run `x`, and then `f` however `x` ended. -/
def ensure (x : Command σ ε α) (f : σ → σ) : Command σ ε α := fun s => (x s).map fun p => (p.1, f p.2)

theorem pure_eq_some_iff {a : α} {s s' : σ} {r : Except ε α} :
    (pure a : Command σ ε α) s = some (r, s') ↔ r = .ok a ∧ s' = s := by
  refine ⟨fun h => ?_, fun h => ?_⟩
  · cases h
    exact ⟨rfl, rfl⟩
  · rw [h.1, h.2]
    rfl

theorem bind_eq_some_iff {x : Command σ ε α} {f : α → Command σ ε β} {s s' : σ} {r : Except ε β} :
    (x >>= f) s = some (r, s') ↔
      (∃ a t, x s = some (.ok a, t) ∧ f a t = some (r, s')) ∨ ∃ e, x s = some (.error e, s') ∧ r = .error e := by
  show (x s).bind _ = _ ↔ _
  rw [Option.bind_eq_some_iff]
  refine ⟨fun h => ?_, fun h => ?_⟩
  · obtain ⟨⟨q, t⟩, hx, hf⟩ := h
    cases q with
    | ok a => exact .inl ⟨a, t, hx, hf⟩
    | error e =>
      cases hf
      exact .inr ⟨e, hx, rfl⟩
  · rcases h with ⟨a, t, hx, hf⟩ | ⟨e, hx, rfl⟩
    · exact ⟨(.ok a, t), hx, hf⟩
    · exact ⟨(.error e, s'), hx, rfl⟩

theorem bind_of_ok {x : Command σ ε α} {f : α → Command σ ε β} {s t : σ} {a : α} (h : x s = some (.ok a, t)) :
    (x >>= f) s = f a t := by
  show (x s).bind _ = _
  rw [h]
  rfl

theorem bind_of_error {x : Command σ ε α} {f : α → Command σ ε β} {s t : σ} {e : ε} (h : x s = some (.error e, t)) :
    (x >>= f) s = some (.error e, t) := by
  show (x s).bind _ = _
  rw [h]
  rfl

theorem bind_of_none {x : Command σ ε α} {f : α → Command σ ε β} {s : σ} (h : x s = none) : (x >>= f) s = none := by
  show (x s).bind _ = _
  rw [h]
  rfl

theorem bind_bind {γ : Type} {x : Command σ ε α} {f : α → Command σ ε β} {g : β → Command σ ε γ} :
    (x >>= f) >>= g = x >>= fun a => f a >>= g := by
  funext s
  show ((x s).bind _).bind _ = (x s).bind _
  rw [Option.bind_assoc]
  congr 1
  funext p
  obtain ⟨r, t⟩ := p
  cases r with
  | ok a => rfl
  | error e => rfl

theorem tryCatch_eq_some_iff {x : Command σ ε α} {f : ε → Command σ ε α} {s s' : σ} {r : Except ε α} :
    (tryCatch x f) s = some (r, s') ↔
      (∃ a, x s = some (.ok a, s') ∧ r = .ok a) ∨ ∃ e t, x s = some (.error e, t) ∧ f e t = some (r, s') := by
  show (x s).bind _ = _ ↔ _
  rw [Option.bind_eq_some_iff]
  refine ⟨fun h => ?_, fun h => ?_⟩
  · obtain ⟨⟨q, t⟩, hx, hf⟩ := h
    cases q with
    | ok a =>
      cases hf
      exact .inl ⟨a, hx, rfl⟩
    | error e => exact .inr ⟨e, t, hx, hf⟩
  · rcases h with ⟨a, hx, rfl⟩ | ⟨e, t, hx, hf⟩
    · exact ⟨(.ok a, s'), hx, rfl⟩
    · exact ⟨(.error e, t), hx, hf⟩

theorem ensure_eq_some_iff {x : Command σ ε α} {f : σ → σ} {s s' : σ} {r : Except ε α} :
    x.ensure f s = some (r, s') ↔ ∃ t, x s = some (r, t) ∧ s' = f t := by
  refine ⟨fun h => ?_, fun h => ?_⟩
  · obtain ⟨⟨q, t⟩, hx, hp⟩ := Option.map_eq_some_iff.1 h
    cases hp
    exact ⟨t, hx, rfl⟩
  · obtain ⟨t, hx, rfl⟩ := h
    exact Option.map_eq_some_iff.2 ⟨(r, t), hx, rfl⟩

/-! ## Along a relation -/

/-- However `x` ends, it has moved the state along `R`. -/
def Keeps (R : σ → σ → Prop) (x : Command σ ε α) : Prop := ∀ s r s', x s = some (r, s') → R s s'

theorem Keeps.modify {f : σ → σ} (h : ∀ s, R s (f s)) : Keeps R (modify f : Command σ ε Unit) := by
  intro s r s' hs
  cases hs
  exact h s

theorem Keeps.ite {c : Prop} [Decidable c] {x y : Command σ ε α} (hx : Keeps R x) (hy : Keeps R y) :
    Keeps R (if c then x else y) := by
  split
  · exact hx
  · exact hy

section Preorder

variable [IsPreorder σ R]

theorem Keeps.pure (a : α) : Keeps R (Pure.pure a : Command σ ε α) := by
  intro s r s' h
  rw [(pure_eq_some_iff.1 h).2]
  exact refl_of R s

theorem Keeps.throw (e : ε) : Keeps R (throw e : Command σ ε α) := by
  intro s r s' h
  cases h
  exact refl_of R s

theorem Keeps.bind {x : Command σ ε α} {f : α → Command σ ε β} (hx : Keeps R x) (hf : ∀ a, Keeps R (f a)) :
    Keeps R (x >>= f) := by
  intro s r s' h
  rcases bind_eq_some_iff.1 h with ⟨a, t, hxt, hft⟩ | ⟨e, hxe, -⟩
  · exact trans_of R (hx s _ t hxt) (hf a t r s' hft)
  · exact hx s _ s' hxe

theorem Keeps.tryCatch {x : Command σ ε α} {f : ε → Command σ ε α} (hx : Keeps R x) (hf : ∀ e, Keeps R (f e)) :
    Keeps R (tryCatch x f) := by
  intro s r s' h
  rcases tryCatch_eq_some_iff.1 h with ⟨a, hxa, -⟩ | ⟨e, t, hxt, hft⟩
  · exact hx s _ s' hxa
  · exact trans_of R (hx s _ t hxt) (hf e t r s' hft)

theorem Keeps.ensure {x : Command σ ε α} {f : σ → σ} (hx : Keeps R x) (hf : ∀ s, R s (f s)) :
    Keeps R (x.ensure f) := by
  intro s r s' h
  obtain ⟨t, hxt, rfl⟩ := ensure_eq_some_iff.1 h
  exact trans_of R (hx s r t hxt) (hf t)

end Preorder

end Command
