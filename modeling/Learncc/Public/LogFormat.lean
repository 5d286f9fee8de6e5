/-
The text of a log line: `process` and `fmt_str` (src/inc/public/synclog.h, and the same in
asynclog.h). All arguments are strings here, which `to_str` copies.

`process` calls `fmt_str` once for each argument, and each call looks for `{}` from the
start of the text, arguments already in it included. The functions are generic in the
characters, so that they can be run on characters that remember where they come from;
`process_iff` says when each argument has replaced a placeholder of the format.
-/
import Mathlib.Data.List.Basic
import Mathlib.Data.List.Nodup

namespace Learncc.LogFormat

variable {β : Type}

/-! ## The code -/

/-- `std::string::find` from the start. -/
def findFirst (ch : β → Char) (placeholder : List Char) : List β → Option ℕ
  | [] => if placeholder = [] then some 0 else none
  | c :: text =>
    if placeholder.isPrefixOf ((c :: text).map ch) then some 0 else (findFirst ch placeholder text).map (· + 1)

def find (ch : β → Char) (result : List β) (placeholder : List Char) (pos : ℕ) : Option ℕ :=
  (findFirst ch placeholder (result.drop pos)).map (pos + ·)

/-- The lambda of `fmt_str`, on `result` and `pos`. -/
def replacePlaceholder (ch : β → Char) (space : β) (placeholder : List Char) (r : List β × ℕ) (replacement : List β) :
    List β × ℕ :=
  match find ch r.1 placeholder r.2 with
  | some placeholderPos =>
    (r.1.take placeholderPos ++ replacement ++ r.1.drop (placeholderPos + placeholder.length),
      placeholderPos + replacement.length)
  | none => (r.1 ++ space :: replacement, r.2)

def fmtStr (ch : β → Char) (space : β) (format : List β) (args : List (List β)) : List β :=
  (args.foldl (replacePlaceholder ch space ['{', '}']) (format, 0)).1

/-- The loop of `process`. -/
def process (ch : β → Char) (space : β) (format : List β) (args : List (List β)) : List β :=
  args.foldl (fun formatstr data => fmtStr ch space formatstr [data]) format

/-! ## What it should be -/

/-- The place of the first `{}`. -/
def placeholder (ch : β → Char) (text : List β) : Option ℕ := findFirst ch ['{', '}'] text

/-- The arguments for which there is no placeholder. -/
def surplus (space : β) (args : List (List β)) : List β := args.flatMap fun arg => space :: arg

/-- Each placeholder of the format with its argument, from left to right; what an argument
brings in is not looked at again. -/
def substitute (ch : β → Char) (space : β) : List β → List (List β) → List β
  | format, [] => format
  | format, arg :: args =>
    match placeholder ch format with
    | some p => format.take p ++ arg ++ substitute ch space (format.drop (p + 2)) args
    | none => format ++ surplus space (arg :: args)

/-- The part of that text before the place of argument `i`. -/
def before (ch : β → Char) (space : β) : List β → List (List β) → ℕ → List β
  | format, [], _ => format
  | format, arg :: args, i =>
    match placeholder ch format, i with
    | some p, 0 => format.take p
    | some p, i + 1 => format.take p ++ arg ++ before ch space (format.drop (p + 2)) args i
    | none, i => format ++ surplus space ((arg :: args).take i)

/-- Characters that remember where they come from: the format, argument `j`, or `fmt_str`. -/
inductive Traced
  | own (i : ℕ) (c : Char)
  | arg (j i : ℕ) (c : Char)
  | space
deriving DecidableEq

def Traced.char : Traced → Char
  | .own _ c => c
  | .arg _ _ c => c
  | .space => ' '

def traceFormat (format : List Char) : List Traced := format.mapIdx Traced.own

def traceArgs (args : List (List Char)) : List (List Traced) := args.mapIdx fun j arg => arg.mapIdx (Traced.arg j)

/-! ## Placeholders -/

/-- There is a `{}` at `q`. -/
def At (ch : β → Char) (text : List β) (q : ℕ) : Prop :=
  ∃ c d, text[q]? = some c ∧ text[q + 1]? = some d ∧ ch c = '{' ∧ ch d = '}'

section

variable {ch : β → Char} {text u v : List β} {p q : ℕ}

theorem at_succ {c : β} : At ch (c :: text) (q + 1) ↔ At ch text q := Iff.rfl

theorem at_zero : (['{', '}'] : List Char).isPrefixOf (text.map ch) = true ↔ At ch text 0 := by
  match text with
  | [] => exact iff_of_false (by simp) fun ⟨c, d, hc, _⟩ => by cases hc
  | [c] => exact iff_of_false (by simp) fun ⟨c, d, _, hd, _⟩ => by cases hd
  | c :: d :: text =>
    rw [List.isPrefixOf_iff_prefix, List.map_cons, List.map_cons, List.cons_prefix_cons, List.cons_prefix_cons]
    constructor
    · intro h
      exact ⟨c, d, rfl, rfl, h.1.symm, h.2.1.symm⟩
    · intro h
      obtain ⟨c', d', hc, hd, hopen, hclose⟩ := h
      cases hc
      cases hd
      exact ⟨hopen.symm, hclose.symm, List.nil_prefix⟩

theorem placeholder_cons (c : β) (text : List β) : placeholder ch (c :: text) =
    if (['{', '}'] : List Char).isPrefixOf ((c :: text).map ch) then some 0
    else (placeholder ch text).map (· + 1) := rfl

theorem placeholder_none (h : placeholder ch text = none) (q : ℕ) : ¬ At ch text q := by
  induction text generalizing q with
  | nil =>
    intro hat
    obtain ⟨c, d, hc, -⟩ := hat
    cases hc
  | cons c text ih =>
    rw [placeholder_cons] at h
    split at h
    · cases h
    · rename_i hzero
      cases q with
      | zero => exact fun hat => hzero (at_zero.2 hat)
      | succ q => exact fun hat => ih (Option.map_eq_none_iff.1 h) q (at_succ.1 hat)

theorem placeholder_some (h : placeholder ch text = some p) : At ch text p ∧ ∀ q < p, ¬ At ch text q := by
  induction text generalizing p with
  | nil => cases h
  | cons c text ih =>
    rw [placeholder_cons] at h
    split at h
    · rename_i hzero
      cases h
      exact ⟨at_zero.1 hzero, fun q hq => absurd hq (Nat.not_lt_zero q)⟩
    · rename_i hzero
      obtain ⟨p', hp', rfl⟩ := Option.map_eq_some_iff.1 h
      obtain ⟨hat, hfirst⟩ := ih hp'
      refine ⟨at_succ.2 hat, fun q hq => ?_⟩
      cases q with
      | zero => exact fun hat => hzero (at_zero.2 hat)
      | succ q => exact fun hat => hfirst q (Nat.lt_of_succ_lt_succ hq) (at_succ.1 hat)

theorem placeholder_eq_some (hat : At ch text p) (hfirst : ∀ q < p, ¬ At ch text q) : placeholder ch text = some p := by
  cases h : placeholder ch text with
  | none => exact absurd hat (placeholder_none h p)
  | some p' =>
    obtain ⟨hat', hfirst'⟩ := placeholder_some h
    rcases Nat.lt_trichotomy p p' with hlt | rfl | hgt
    · exact absurd hat (hfirst' p hlt)
    · rfl
    · exact absurd hat' (hfirst p' hgt)

theorem At.lt (h : At ch text q) : q + 1 < text.length := by
  obtain ⟨c, d, -, hd, -⟩ := h
  exact (List.getElem?_eq_some_iff.1 hd).1

/-- Looking at a beginning of the text. -/
theorem at_append_left (h : q + 1 < u.length) : At ch (u ++ v) q ↔ At ch u q := by
  unfold At
  rw [List.getElem?_append_left (Nat.lt_of_succ_lt h), List.getElem?_append_left h]

theorem at_append_right : At ch (u ++ v) (u.length + q) ↔ At ch v q := by
  unfold At
  rw [List.getElem?_append_right (by omega), List.getElem?_append_right (by omega)]
  rw [show u.length + q - u.length = q by omega, show u.length + q + 1 - u.length = q + 1 by omega]

/-- A `{}` in the first part of a text is found there. -/
theorem placeholder_left (h : placeholder ch u = some q) : placeholder ch (u ++ v) = some q := by
  obtain ⟨hat, hfirst⟩ := placeholder_some h
  have hlt := hat.lt
  refine placeholder_eq_some ((at_append_left hlt).2 hat) fun q' hq' hat' => ?_
  exact hfirst q' hq' ((at_append_left (by omega)).1 hat')

/-- Otherwise the one behind it is: no `{}` begins with the end of the first part. -/
theorem placeholder_right (h : placeholder ch u = none) (hv : At ch v 0) :
    placeholder ch (u ++ v) = some u.length := by
  refine placeholder_eq_some (at_append_right (q := 0) |>.2 hv) fun q hq hat => ?_
  by_cases hlt : q + 1 < u.length
  · exact placeholder_none h q ((at_append_left hlt).1 hat)
  · obtain ⟨c, d, -, hd, -, hclose⟩ := hat
    obtain ⟨c', d', hc', -, hopen, -⟩ := hv
    rw [List.getElem?_append_right (by omega), show q + 1 - u.length = 0 by omega, hc'] at hd
    cases hd
    rw [hopen] at hclose
    exact absurd hclose (by decide)

theorem at_drop (h : placeholder ch text = some p) : At ch (text.drop p) 0 := by
  obtain ⟨⟨c, d, hc, hd, hch⟩, -⟩ := placeholder_some h
  exact ⟨c, d, by rw [List.getElem?_drop]; exact hc, by rw [List.getElem?_drop]; exact hd, hch⟩

/-! ## One argument -/

/-- What `process` makes of the text for one argument. -/
theorem fmtStr_one (space : β) (text arg : List β) : fmtStr ch space text [arg] =
    match placeholder ch text with
    | some q => text.take q ++ arg ++ text.drop (q + 2)
    | none => text ++ space :: arg := by
  have hfind : find ch text ['{', '}'] 0 = placeholder ch text := by
    rw [find, List.drop_zero, placeholder]
    cases findFirst ch ['{', '}'] text with
    | none => rfl
    | some q => exact congrArg some (Nat.zero_add q)
  simp only [fmtStr, List.foldl_cons, List.foldl_nil, replacePlaceholder, hfind]
  cases placeholder ch text with
  | none => rfl
  | some q => rfl

theorem mem_fmtStr {space c : β} {text arg : List β} (h : c ∈ fmtStr ch space text [arg]) :
    c ∈ text ∨ c = space ∨ c ∈ arg := by
  rw [fmtStr_one] at h
  split at h
  · rcases List.mem_append.1 h with h | h
    · rcases List.mem_append.1 h with h | h
      · exact .inl (List.mem_of_mem_take h)
      · exact .inr (.inr h)
    · exact .inl (List.mem_of_mem_drop h)
  · rcases List.mem_append.1 h with h | h
    · exact .inl h
    · exact .inr (List.mem_cons.1 h)

theorem mem_process {space c : β} {args : List (List β)} (h : c ∈ process ch space text args) :
    c ∈ text ∨ c = space ∨ c ∈ args.flatten := by
  induction args generalizing text with
  | nil => exact .inl h
  | cons arg args ih =>
    rw [List.flatten_cons, List.mem_append]
    rcases ih h with h | h | h
    · rcases mem_fmtStr h with h | h | h
      · exact .inl h
      · exact .inr (.inl h)
      · exact .inr (.inr (.inl h))
    · exact .inr (.inl h)
    · exact .inr (.inr (.inr h))

/-! ## All arguments -/

theorem substitute_nil (space : β) (args : List (List β)) : substitute ch space [] args = surplus space args := by
  cases args with
  | nil => rfl
  | cons arg args => rfl

theorem before_nil (space : β) (args : List (List β)) (i : ℕ) :
    before ch space [] args i = surplus space (args.take i) := by
  cases args with
  | nil =>
    rw [List.take_nil]
    rfl
  | cons arg args => rfl

section

variable {space : β} {arg : List β} {args : List (List β)}

theorem substitute_some (h : placeholder ch text = some p) : substitute ch space text (arg :: args) =
    text.take p ++ (arg ++ substitute ch space (text.drop (p + 2)) args) := by
  rw [substitute, h]
  exact List.append_assoc ..

theorem substitute_none (h : placeholder ch text = none) : substitute ch space text (arg :: args) =
    text ++ (space :: arg ++ substitute ch space [] args) := by
  rw [substitute_nil, substitute, h]
  rfl

theorem before_some_zero (h : placeholder ch text = some p) :
    before ch space text (arg :: args) 0 = text.take p := by simp only [before, h]

theorem before_some_succ (h : placeholder ch text = some p) (i : ℕ) : before ch space text (arg :: args) (i + 1) =
    text.take p ++ arg ++ before ch space (text.drop (p + 2)) args i := by simp only [before, h]

theorem before_none_zero (h : placeholder ch text = none) : before ch space text (arg :: args) 0 = text := by
  simp only [before, h]
  exact List.append_nil text

theorem before_none_succ (h : placeholder ch text = none) (i : ℕ) : before ch space text (arg :: args) (i + 1) =
    text ++ (space :: arg ++ before ch space [] args i) := by
  simp only [before, h, before_nil]
  rfl

/-- The argument goes where the first placeholder of the second part is. -/
theorem process_some (hnone : placeholder ch (u ++ text.take p) = none) (h : placeholder ch text = some p) :
    process ch space (u ++ text.take p ++ text.drop p) (arg :: args) =
      process ch space (u ++ text.take p ++ arg ++ text.drop (p + 2)) args := by
  have hstep : fmtStr ch space (u ++ text.take p ++ text.drop p) [arg] =
      u ++ text.take p ++ arg ++ text.drop (p + 2) := by
    rw [fmtStr_one, placeholder_right hnone (at_drop h)]
    dsimp only
    rw [List.take_left, ← List.drop_drop, List.drop_left, List.drop_drop]
  exact congrArg (process ch space · args) hstep

theorem process_none (h : placeholder ch text = none) :
    process ch space text (arg :: args) = process ch space (text ++ space :: arg) args := by
  have hstep : fmtStr ch space text [arg] = text ++ space :: arg := by rw [fmtStr_one, h]
  exact congrArg (process ch space · args) hstep

end

variable [DecidableEq β]

/-- No opening brace occurs twice. -/
def Unique (ch : β → Char) (text : List β) : Prop := ∀ c, ch c = '{' → text.count c ≤ 1

/-- Where an argument replaces the wrong `{}`, a brace is lost for good. -/
theorem process_loses {space : β} {arg : List β} {args : List (List β)} (hspace : ch space = ' ')
    (hunique : Unique ch (u ++ v ++ (arg ++ args.flatten))) (h : placeholder ch u = some q) :
    ∃ c ∈ u, c ∉ process ch space (u ++ v) (arg :: args) := by
  have hat := (placeholder_some h).1
  have hlt := hat.lt
  obtain ⟨c, d, hc, -, hopen, -⟩ := hat
  obtain ⟨hq, hget⟩ := List.getElem?_eq_some_iff.1 hc
  have hcount := hunique c hopen
  have hu : u = u.take q ++ c :: u.drop (q + 1) := by
    rw [← hget, List.getElem_cons_drop, List.take_append_drop]
  have hcu : u.count c = (u.take q).count c + (1 + (u.drop (q + 1)).count c) := by
    conv_lhs => rw [hu]
    rw [List.count_append, List.count_cons_self, Nat.add_comm 1]
  simp only [List.count_append, hcu] at hcount
  refine ⟨c, hget ▸ List.getElem_mem hq, fun hmem => ?_⟩
  have hstep : process ch space (u ++ v) (arg :: args) = process ch space (fmtStr ch space (u ++ v) [arg]) args := rfl
  rw [hstep, fmtStr_one, placeholder_left h] at hmem
  rcases mem_process hmem with hmem | rfl | hmem
  · have hpos := List.count_pos_iff.2 hmem
    have hdrop : (u.drop (q + 2)).count c ≤ (u.drop (q + 1)).count c := by
      rw [show q + 2 = q + 1 + 1 from rfl, ← List.drop_drop]
      exact List.Sublist.count_le c (List.drop_sublist 1 _)
    simp only [List.count_append, List.take_append_of_le_length (Nat.le_of_lt hq),
      List.drop_append_of_le_length (show q + 2 ≤ u.length by omega)] at hpos
    omega
  · rw [hspace] at hopen
    exact absurd hopen (by decide)
  · have hpos := List.count_pos_iff.2 hmem
    omega

theorem Unique.mono {text' : List β} (h : Unique ch text) (hle : ∀ c, ch c = '{' → text'.count c ≤ text.count c) :
    Unique ch text' := fun c hc => Nat.le_trans (hle c hc) (h c hc)

/-- The next argument goes where it should exactly when there is no `{}` before that place. -/
theorem process_cons_iff {space : β} {arg tail : List β} {args : List (List β)} {P : Prop} (hspace : ch space = ' ')
    (hunique : Unique ch (u ++ v ++ (arg ++ args.flatten)))
    (hnext : placeholder ch u = none → (process ch space (u ++ v) (arg :: args) = u ++ tail ↔ P)) :
    process ch space (u ++ v) (arg :: args) = u ++ tail ↔ placeholder ch u = none ∧ P := by
  cases hu : placeholder ch u with
  | none =>
    rw [hnext hu]
    exact (and_iff_right rfl).symm
  | some q =>
    obtain ⟨c, hc, hlost⟩ := process_loses hspace hunique hu
    refine iff_of_false (fun he => hlost ?_) fun hand => by cases hand.1
    rw [he]
    exact List.mem_append_left _ hc

/-- `built` is what has been made of the format so far, `rest` what is left of it. -/
theorem process_eq_iff {space : β} (hspace : ch space = ' ') {args : List (List β)} {built rest : List β}
    (hunique : Unique ch (built ++ rest ++ args.flatten)) :
    process ch space (built ++ rest) args = built ++ substitute ch space rest args ↔
      ∀ i < args.length, placeholder ch (built ++ before ch space rest args i) = none := by
  induction args generalizing built rest with
  | nil => exact iff_of_true rfl fun i hi => absurd hi (Nat.not_lt_zero i)
  | cons arg args ih =>
    rw [List.length_cons, Nat.forall_lt_succ_left]
    cases hrest : placeholder ch rest with
    | some p =>
      have htext : built ++ rest = (built ++ rest.take p) ++ rest.drop p := by
        rw [List.append_assoc, List.take_append_drop]
      have hbefores : ∀ i, built ++ before ch space rest (arg :: args) (i + 1) =
          (built ++ rest.take p ++ arg) ++ before ch space (rest.drop (p + 2)) args i := by
        intro i
        simp only [before_some_succ hrest, List.append_assoc]
      rw [htext, substitute_some hrest, ← List.append_assoc built, before_some_zero hrest]
      simp only [hbefores]
      refine process_cons_iff hspace (by rwa [← htext]) fun hnone => ?_
      rw [process_some hnone hrest, ← List.append_assoc (built ++ rest.take p)]
      refine ih (hunique.mono fun c _ => ?_)
      have hdrop : (rest.drop (p + 2)).count c ≤ (rest.drop p).count c := by
        rw [← List.drop_drop]
        exact List.Sublist.count_le c (List.drop_sublist 2 _)
      rw [htext, List.flatten_cons]
      simp only [List.count_append]
      omega
    | none =>
      have hbefores : ∀ i, built ++ before ch space rest (arg :: args) (i + 1) =
          (built ++ rest ++ space :: arg) ++ before ch space [] args i := by
        intro i
        simp only [before_none_succ hrest, List.append_assoc]
      rw [substitute_none hrest, ← List.append_assoc built, before_none_zero hrest]
      simp only [hbefores]
      have hwhole : process ch space (built ++ rest) (arg :: args) =
          process ch space (built ++ rest ++ []) (arg :: args) := by rw [List.append_nil]
      rw [hwhole]
      refine process_cons_iff hspace (by rwa [List.append_nil]) fun hnone => ?_
      have hnext : process ch space (built ++ rest ++ []) (arg :: args) =
          process ch space ((built ++ rest ++ space :: arg) ++ []) args := by
        rw [List.append_nil, List.append_nil, process_none hnone]
      rw [hnext, ← List.append_assoc (built ++ rest)]
      refine ih (hunique.mono fun c hc => ?_)
      have hne : space ≠ c := fun he => by
        rw [he, hc] at hspace
        exact absurd hspace (by decide)
      rw [List.flatten_cons, List.append_nil]
      simp only [List.count_append, List.count_cons_of_ne hne]
      omega

end

/-! ## Characters with an origin -/

section

variable (ch : β → Char) (space : β)

theorem findFirst_map (placeholder : List Char) (text : List β) :
    findFirst ch placeholder text = findFirst id placeholder (text.map ch) := by
  induction text with
  | nil => rfl
  | cons c text ih => simp only [findFirst, List.map_cons, List.map_id_fun, id_eq, ih]

theorem placeholder_map (text : List β) : placeholder id (text.map ch) = placeholder ch text :=
  (findFirst_map ch _ text).symm

theorem fmtStr_map (text arg : List β) :
    (fmtStr ch space text [arg]).map ch = fmtStr id (ch space) (text.map ch) [arg.map ch] := by
  rw [fmtStr_one, fmtStr_one, placeholder_map]
  cases placeholder ch text with
  | none => simp only [List.map_append, List.map_cons]
  | some q => simp only [List.map_append, List.map_take, List.map_drop]

/-- Whatever else its characters carry, the text is the same. -/
theorem process_map (text : List β) (args : List (List β)) :
    (process ch space text args).map ch = process id (ch space) (text.map ch) (args.map (List.map ch)) := by
  induction args generalizing text with
  | nil => rfl
  | cons arg args ih =>
    have hstep : process ch space text (arg :: args) = process ch space (fmtStr ch space text [arg]) args := rfl
    rw [hstep, ih, fmtStr_map]
    rfl

theorem surplus_map (args : List (List β)) :
    (surplus space args).map ch = surplus (ch space) (args.map (List.map ch)) := by
  simp only [surplus, List.map_flatMap, List.flatMap_map, List.map_cons]

theorem substitute_map (text : List β) (args : List (List β)) :
    (substitute ch space text args).map ch = substitute id (ch space) (text.map ch) (args.map (List.map ch)) := by
  induction args generalizing text with
  | nil => rfl
  | cons arg args ih =>
    rw [List.map_cons]
    cases h : placeholder ch text with
    | none => simp only [substitute, placeholder_map, h, List.map_append, surplus_map, List.map_cons]
    | some p => simp only [substitute, placeholder_map, h, List.map_append, List.map_take, ih, List.map_drop]

theorem before_map (text : List β) (args : List (List β)) (i : ℕ) :
    (before ch space text args i).map ch = before id (ch space) (text.map ch) (args.map (List.map ch)) i := by
  induction args generalizing text i with
  | nil => rfl
  | cons arg args ih =>
    rw [List.map_cons]
    cases h : placeholder ch text with
    | none => simp only [before, placeholder_map, h, List.map_append, surplus_map, List.map_take, List.map_cons]
    | some p =>
      cases i with
      | zero => simp only [before, placeholder_map, h, List.map_take]
      | succ i => simp only [before, placeholder_map, h, List.map_append, List.map_take, ih, List.map_drop]

end

theorem traceFormat_map (format : List Char) : (traceFormat format).map Traced.char = format := by
  refine List.ext_getElem? fun i => ?_
  rw [traceFormat, List.getElem?_map, List.getElem?_mapIdx, Option.map_map]
  exact Option.map_id_apply

theorem traceArgs_map (args : List (List Char)) : (traceArgs args).map (List.map Traced.char) = args := by
  refine List.ext_getElem? fun j => ?_
  rw [traceArgs, List.getElem?_map, List.getElem?_mapIdx, Option.map_map]
  have harg : (List.map Traced.char ∘ fun arg => List.mapIdx (Traced.arg j) arg) = id := by
    funext arg
    refine List.ext_getElem? fun i => ?_
    rw [Function.comp_apply, List.getElem?_map, List.getElem?_mapIdx, Option.map_map]
    exact Option.map_id_apply
  rw [harg, Option.map_id_apply]

theorem nodup_mapIdx {α : Type} {f : ℕ → α → β} (hf : ∀ {i j a b}, f i a = f j b → i = j) (l : List α) :
    (l.mapIdx f).Nodup := by
  refine List.pairwise_iff_getElem.2 fun i j hi hj hlt he => ?_
  rw [List.getElem_mapIdx, List.getElem_mapIdx] at he
  exact absurd (hf he) (Nat.ne_of_lt hlt)

theorem unique_trace (format : List Char) (args : List (List Char)) :
    Unique Traced.char (traceFormat format ++ (traceArgs args).flatten) := by
  have hargs : (traceArgs args).flatten.Nodup := by
    unfold traceArgs
    refine List.nodup_flatten.2 ⟨fun text htext => ?_, List.pairwise_iff_getElem.2 fun j k hj hk hlt => ?_⟩
    · obtain ⟨j, hj, rfl⟩ := List.mem_mapIdx.1 htext
      exact nodup_mapIdx (fun he => (Traced.arg.inj he).2.1) _
    · intro c hc hc'
      rw [List.getElem_mapIdx] at hc hc'
      obtain ⟨i, hi, rfl⟩ := List.mem_mapIdx.1 hc
      obtain ⟨i', hi', he⟩ := List.mem_mapIdx.1 hc'
      exact absurd (Traced.arg.inj he).1 (Nat.ne_of_gt hlt)
  have hall : (traceFormat format ++ (traceArgs args).flatten).Nodup := by
    refine List.nodup_append'.2 ⟨nodup_mapIdx (fun he => (Traced.own.inj he).1) _, hargs, fun c hc hc' => ?_⟩
    obtain ⟨i, hi, rfl⟩ := List.mem_mapIdx.1 hc
    obtain ⟨text, htext, hc'⟩ := List.mem_flatten.1 hc'
    obtain ⟨j, hj, rfl⟩ := List.mem_mapIdx.1 htext
    obtain ⟨i', hi', he⟩ := List.mem_mapIdx.1 hc'
    cases he
  exact fun c _ => List.nodup_iff_count_le_one.1 hall c

/-- **When the line is the one meant.** For every format and all arguments: the text is the
format with its placeholders replaced from left to right and the other arguments behind it,
and each character is where it belongs by its origin, exactly when the text before the place
of each argument has no `{}`. -/
theorem process_iff (format : List Char) (args : List (List Char)) :
    (process id ' ' format args = substitute id ' ' format args ∧
      process Traced.char .space (traceFormat format) (traceArgs args) =
        substitute Traced.char .space (traceFormat format) (traceArgs args)) ↔
      ∀ i < args.length, placeholder id (before id ' ' format args i) = none := by
  have hlength : (traceArgs args).length = args.length := List.length_mapIdx
  have hspace : Traced.char .space = ' ' := rfl
  have hunique : Unique Traced.char ([] ++ traceFormat format ++ (traceArgs args).flatten) := unique_trace format args
  have hiff := process_eq_iff hspace hunique
  rw [hlength] at hiff
  simp only [List.nil_append] at hiff
  have hbefore : ∀ i, placeholder id (before id ' ' format args i) =
      placeholder Traced.char (before Traced.char .space (traceFormat format) (traceArgs args) i) := by
    intro i
    rw [← placeholder_map Traced.char, before_map, traceFormat_map, traceArgs_map]
    rfl
  simp only [hbefore]
  rw [← hiff]
  refine and_iff_right_of_imp fun htraced => ?_
  have hmap := congrArg (List.map Traced.char) htraced
  rwa [process_map, substitute_map, traceFormat_map, traceArgs_map] at hmap

/-- `{} {}` with `{}` and `x`: the second argument replaces the first. -/
theorem not_substituted_braces :
    process id ' ' ['{', '}', ' ', '{', '}'] [['{', '}'], ['x']] ≠
      substitute id ' ' ['{', '}', ' ', '{', '}'] [['{', '}'], ['x']] := by
  decide

end Learncc.LogFormat
