/-
Loading a whole file (src/arpc/arpc_conf.cc): the lines, the pieces `fgets` makes of them,
and the map.

`load_iff` says for which files the map is the one meant, at the end and after each
line; `load_of_short` is the simple case.
-/
import Learncc.Arpc.Conf

namespace Learncc.ArpcConf

/-! ## Lines and pieces -/

/-- The lines of a text, with their newlines. -/
def linesOf : List Char → List (List Char)
  | [] => []
  | c :: text =>
    if c = '\n' then [c] :: linesOf text
    else
      match linesOf text with
      | [] => [[c]]
      | line :: lines => (c :: line) :: lines

/-- What `fgets` makes of a line. -/
def piecesOf (line : List Char) : List (List Char) :=
  if _h : line.length ≤ 511 then [line] else line.take 511 :: piecesOf (line.drop 511)
termination_by line.length
decreasing_by
  rw [List.length_drop]
  omega

section

variable {c rest : List Char} {m : ConfMap}

theorem line_induction {P : List Char → Prop} (plain : ∀ c, '\n' ∉ c → P c)
    (newline : ∀ c rest, '\n' ∉ c → P rest → P (c ++ '\n' :: rest)) (text : List Char) : P text := by
  induction hn : text.length using Nat.strong_induction_on generalizing text with
  | _ n ih =>
    by_cases hmem : '\n' ∈ text
    · obtain ⟨c, rest, rfl, hc⟩ := List.eq_append_cons_of_mem hmem
      rw [List.length_append, List.length_cons] at hn
      exact newline c rest hc (ih rest.length (by omega) rest rfl)
    · exact plain text hmem

theorem linesOf_newline (hc : '\n' ∉ c) (rest : List Char) :
    linesOf (c ++ '\n' :: rest) = (c ++ ['\n']) :: linesOf rest := by
  induction c with
  | nil => exact if_pos rfl
  | cons d c ih =>
    rw [List.mem_cons, not_or] at hc
    rw [List.cons_append, linesOf, if_neg (Ne.symm hc.1), ih hc.2]
    rfl

theorem linesOf_plain (hc : '\n' ∉ c) (hne : c ≠ []) : linesOf c = [c] := by
  induction c with
  | nil => exact absurd rfl hne
  | cons d c ih =>
    rw [List.mem_cons, not_or] at hc
    rw [linesOf, if_neg (Ne.symm hc.1)]
    by_cases hnil : c = []
    · rw [hnil]
      rfl
    · rw [ih hc.2 hnil]

theorem linesOf_flatten (text : List Char) : (linesOf text).flatten = text := by
  induction text using line_induction with
  | plain c hc =>
    by_cases hne : c = []
    · rw [hne]
      rfl
    · rw [linesOf_plain hc hne, List.flatten_singleton]
  | newline c rest hc ih => rw [linesOf_newline hc, List.flatten_cons, ih, List.append_assoc, List.singleton_append]

/-- The first lines of a text have the same lines. -/
theorem linesOf_take (text : List Char) (i : ℕ) : linesOf ((linesOf text).take i).flatten = (linesOf text).take i := by
  induction text using line_induction generalizing i with
  | plain c hc =>
    cases i with
    | zero => rfl
    | succ i =>
      have hall : (linesOf c).take (i + 1) = linesOf c := by
        refine List.take_of_length_le ?_
        by_cases hne : c = []
        · rw [hne]
          exact Nat.zero_le _
        · rw [linesOf_plain hc hne, List.length_singleton]
          omega
      rw [hall, linesOf_flatten]
  | newline c rest hc ih =>
    cases i with
    | zero => rfl
    | succ i =>
      rw [linesOf_newline hc, List.take_succ_cons, List.flatten_cons, List.append_assoc, List.singleton_append,
        linesOf_newline hc, ih]

/-! ## Reading -/

theorem fgets_full (hc : '\n' ∉ c) (rest : List Char) : fgets c.length (c ++ rest) = ⟨c, rest, false⟩ := by
  induction c with
  | nil => rfl
  | cons d c ih =>
    rw [List.mem_cons, not_or] at hc
    rw [List.length_cons, List.cons_append, fgets, if_neg (Ne.symm hc.1), ih hc.2]

theorem fgets_newline {n : ℕ} (hc : '\n' ∉ c) (hn : c.length < n) (rest : List Char) :
    fgets n (c ++ '\n' :: rest) = ⟨c ++ ['\n'], rest, false⟩ := by
  induction c generalizing n with
  | nil =>
    cases n with
    | zero => exact absurd hn (Nat.not_lt_zero _)
    | succ n => exact if_pos rfl
  | cons d c ih =>
    rw [List.mem_cons, not_or] at hc
    cases n with
    | zero => exact absurd hn (Nat.not_lt_zero _)
    | succ n =>
      rw [List.cons_append, fgets, if_neg (Ne.symm hc.1), ih hc.2 (Nat.lt_of_succ_lt_succ hn)]
      rfl

theorem fgets_end {n : ℕ} (hc : '\n' ∉ c) (hn : c.length < n) : fgets n c = ⟨c, [], true⟩ := by
  induction c generalizing n with
  | nil =>
    cases n with
    | zero => exact absurd hn (Nat.not_lt_zero _)
    | succ n => rfl
  | cons d c ih =>
    rw [List.mem_cons, not_or] at hc
    cases n with
    | zero => exact absurd hn (Nat.not_lt_zero _)
    | succ n => rw [fgets, if_neg (Ne.symm hc.1), ih hc.2 (Nat.lt_of_succ_lt_succ hn)]

theorem loadLoop_nil (m : ConfMap) : loadLoop m [] = m := by
  rw [loadLoop]
  rfl

theorem loadLoop_more {file buf rest : List Char} (h : fgets 511 file = ⟨buf, rest, false⟩) :
    loadLoop m file = loadLoop (round m buf) rest := by
  rw [loadLoop, h]
  rfl

theorem piecesOf_short (h : c.length ≤ 511) : piecesOf c = [c] := by rw [piecesOf, dif_pos h]

theorem piecesOf_long (h : ¬ c.length ≤ 511) : piecesOf c = c.take 511 :: piecesOf (c.drop 511) := by
  conv_lhs => rw [piecesOf, dif_neg h]

/-- A full buffer. -/
theorem loadLoop_full (hc : '\n' ∉ c) (hlen : 511 ≤ c.length) (rest : List Char) :
    loadLoop m (c ++ rest) = loadLoop (round m (c.take 511)) (c.drop 511 ++ rest) := by
  have hfull := fgets_full (fun h => hc (List.mem_of_mem_take h) : '\n' ∉ c.take 511) (c.drop 511 ++ rest)
  rw [List.length_take_of_le hlen, ← List.append_assoc, List.take_append_drop] at hfull
  exact loadLoop_more hfull

theorem loadLoop_newline (hc : '\n' ∉ c) (rest : List Char) :
    loadLoop m (c ++ '\n' :: rest) = loadLoop ((piecesOf (c ++ ['\n'])).foldl round m) rest := by
  induction hn : c.length using Nat.strong_induction_on generalizing c m with
  | _ n ih =>
    have hlen : (c ++ ['\n']).length = c.length + 1 := by rw [List.length_append, List.length_singleton]
    by_cases hshort : c.length < 511
    · rw [loadLoop_more (fgets_newline hc hshort rest), piecesOf_short (by omega)]
      rfl
    · have hpieces : piecesOf (c ++ ['\n']) = c.take 511 :: piecesOf (c.drop 511 ++ ['\n']) := by
        rw [piecesOf_long (by omega), List.take_append_of_le_length (by omega),
          List.drop_append_of_le_length (by omega)]
      rw [loadLoop_full hc (by omega), hpieces, List.foldl_cons]
      exact ih (c.drop 511).length (by rw [List.length_drop]; omega) (fun h => hc (List.mem_of_mem_drop h)) rfl

theorem loadLoop_plain (hc : '\n' ∉ c) : loadLoop m c = (piecesOf c).foldl round m := by
  induction hn : c.length using Nat.strong_induction_on generalizing c m with
  | _ n ih =>
    by_cases hshort : c.length < 511
    · rw [loadLoop, fgets_end hc hshort, piecesOf_short (by omega)]
      rfl
    · have hfull := loadLoop_full (m := m) hc (by omega) []
      rw [List.append_nil, List.append_nil] at hfull
      by_cases hexact : c.length ≤ 511
      · rw [hfull, piecesOf_short hexact, List.take_of_length_le hexact, List.drop_of_length_le hexact, loadLoop_nil]
        rfl
      · rw [hfull, piecesOf_long hexact, List.foldl_cons]
        exact ih (c.drop 511).length (by rw [List.length_drop]; omega) (fun h => hc (List.mem_of_mem_drop h)) rfl

/-- The loop reads line after line, each in its pieces. -/
theorem loadLoop_eq (text : List Char) : loadLoop m text = ((linesOf text).flatMap piecesOf).foldl round m := by
  induction text using line_induction generalizing m with
  | plain c hc =>
    by_cases hne : c = []
    · rw [hne, loadLoop_nil]
      rfl
    · rw [linesOf_plain hc hne, List.flatMap_singleton, loadLoop_plain hc]
  | newline c rest hc ih => rw [loadLoop_newline hc, ih, linesOf_newline hc, List.flatMap_cons, List.foldl_append]

/-- A line has its newline at the end, if any, and so have its pieces. -/
theorem parseLine_pieces {line : List Char} (h : ∃ c, '\n' ∉ c ∧ (line = c ∨ line = c ++ ['\n'])) :
    ∀ piece ∈ piecesOf line, parseLine piece = pieceBind piece := by
  induction hn : line.length using Nat.strong_induction_on generalizing line with
  | _ n ih =>
    obtain ⟨c, hc, hline⟩ := h
    by_cases hshort : line.length ≤ 511
    · rw [piecesOf_short hshort]
      intro piece hpiece
      rw [List.mem_singleton.1 hpiece]
      rcases hline with rfl | rfl
      · exact parseLine_plain hc
      · exact parseLine_newline hc
    · have htake : line.take 511 = c.take 511 ∧
          (line.drop 511 = c.drop 511 ∨ line.drop 511 = c.drop 511 ++ ['\n']) := by
        rcases hline with rfl | rfl
        · exact ⟨rfl, .inl rfl⟩
        · rw [List.length_append, List.length_singleton] at hshort
          rw [List.take_append_of_le_length (by omega), List.drop_append_of_le_length (by omega)]
          exact ⟨rfl, .inr rfl⟩
      rw [piecesOf_long hshort]
      intro piece hpiece
      rcases List.mem_cons.1 hpiece with rfl | hpiece
      · rw [htake.1]
        exact parseLine_plain fun h => hc (List.mem_of_mem_take h)
      · exact ih (line.drop 511).length (by rw [List.length_drop]; omega)
          ⟨c.drop 511, fun h => hc (List.mem_of_mem_drop h), htake.2⟩ rfl piece hpiece

theorem parseLine_lines (text : List Char) :
    ∀ line ∈ linesOf text, ∀ piece ∈ piecesOf line, parseLine piece = pieceBind piece := by
  induction text using line_induction with
  | plain c hc =>
    by_cases hne : c = []
    · rw [hne]
      exact fun line hline => absurd hline List.not_mem_nil
    · rw [linesOf_plain hc hne, List.forall_mem_singleton]
      exact parseLine_pieces ⟨c, hc, .inl rfl⟩
  | newline c rest hc ih =>
    rw [linesOf_newline hc, List.forall_mem_cons]
    exact ⟨parseLine_pieces ⟨c, hc, .inr rfl⟩, ih⟩

/-! ## Bindings -/

/-- What a line binds in the file it should be. -/
def lineBind (line : List Char) : Option (List Char × List Char) := bind (line.takeWhile (· ≠ '\n'))

theorem insert_apply (kv : List Char × List Char) (key : List Char) :
    insert m kv key = (m key).or ([kv].lookup key) := by
  rw [insert]
  split
  · rename_i hbound
    by_cases hk : key = kv.1
    · rw [← hk] at hbound
      obtain ⟨value, hvalue⟩ := Option.isSome_iff_exists.1 hbound
      rw [hvalue, Option.some_or]
    · rw [List.lookup_singleton, if_neg (by simpa using hk), Option.or_none]
  · rename_i hfree
    by_cases hk : key = kv.1
    · subst hk
      rw [Function.update_self, Option.not_isSome_iff_eq_none.1 hfree, Option.none_or, List.lookup_cons_self]
    · rw [Function.update_of_ne hk, List.lookup_singleton, if_neg (by simpa using hk), Option.or_none]

theorem foldl_round (bufs : List (List Char)) (key : List Char) :
    bufs.foldl round m key = (m key).or ((bufs.filterMap parseLine).lookup key) := by
  induction bufs generalizing m with
  | nil => exact Option.or_none.symm
  | cons buf bufs ih =>
    rw [List.foldl_cons, ih]
    cases hparse : parseLine buf with
    | none =>
      rw [List.filterMap_cons_none hparse]
      simp only [round, hparse]
    | some kv =>
      rw [List.filterMap_cons_some hparse, ← List.singleton_append, List.lookup_append, ← Option.or_assoc,
        ← insert_apply]
      simp only [round, hparse]

theorem loadConfigFile_eq (file key : List Char) :
    loadConfigFile file key = ((linesOf file).flatMap fun line => (piecesOf line).filterMap pieceBind).lookup key := by
  rw [loadConfigFile, loadLoop_eq, foldl_round, Option.none_or, List.filterMap_flatMap]
  congr 1
  refine List.flatMap_congr fun line hline => ?_
  exact List.filterMap_congr fun piece hpiece => parseLine_lines file line hline piece hpiece

theorem reference_eq (file key : List Char) :
    reference file key = ((linesOf file).flatMap fun line => (lineBind line).toList).lookup key := by
  have hone : ∀ c, [c].filterMap bind = (bind c).toList := by
    intro c
    rw [List.filterMap_eq_flatMap_toList, List.flatMap_singleton]
  rw [reference]
  congr 1
  induction file using line_induction with
  | plain c hc =>
    have hsplit : c.splitOn '\n' = [c] :=
      List.splitOnP_eq_singleton fun d hd => beq_false_of_ne fun he => hc (he ▸ hd)
    rw [hsplit, hone]
    by_cases hne : c = []
    · rw [hne]
      rfl
    · have htake : c.takeWhile (· ≠ '\n') = c :=
        List.takeWhile_eq_self_iff.2 fun d hd => decide_eq_true fun he => hc (he ▸ hd)
      rw [linesOf_plain hc hne, List.flatMap_singleton, lineBind, htake]
  | newline c rest hc ih =>
    have hsplit : (c ++ '\n' :: rest).splitOn '\n' = c :: rest.splitOn '\n' :=
      List.splitOnP_append_cons_of_forall_mem (p := (· == '\n')) (fun d hd => beq_false_of_ne fun he => hc (he ▸ hd))
        '\n' (beq_self_eq_true '\n') rest
    have hline : lineBind (c ++ ['\n']) = bind c := by rw [lineBind, takeWhile_ne hc]
    rw [hsplit, linesOf_newline hc, List.flatMap_cons, ← ih, hline, ← List.singleton_append, List.filterMap_append,
      hone]

/-- Two ways to bind, the first binding of a key winning: they agree after each line when each
line binds alike what is not bound before it. -/
theorem first_wins {f g : List Char → List (List Char × List Char)} (lines : List (List Char)) :
    (∀ i, ∀ key, ((lines.take i).flatMap f).lookup key = ((lines.take i).flatMap g).lookup key) ↔
      ∀ i (h : i < lines.length), ∀ key, ((lines.take i).flatMap g).lookup key = none →
        (f lines[i]).lookup key = (g lines[i]).lookup key := by
  constructor
  · intro hall i h key hfree
    have hnext := hall (i + 1) key
    rw [List.take_succ_eq_append_getElem h, List.flatMap_append, List.flatMap_append, List.lookup_append,
      List.lookup_append, hall i key, hfree, Option.none_or, Option.none_or, List.flatMap_singleton,
      List.flatMap_singleton] at hnext
    exact hnext
  · intro hline i
    induction i with
    | zero => exact fun key => rfl
    | succ i ih =>
      intro key
      by_cases h : i < lines.length
      · rw [List.take_succ_eq_append_getElem h, List.flatMap_append, List.flatMap_append, List.lookup_append,
          List.lookup_append, ih key, List.flatMap_singleton, List.flatMap_singleton]
        cases hfree : ((lines.take i).flatMap g).lookup key with
        | none => rw [Option.none_or, Option.none_or, hline i h key hfree]
        | some value => rw [Option.some_or, Option.some_or]
      · have hle : lines.length ≤ i := Nat.le_of_not_lt h
        have hsame := ih key
        rw [List.take_of_length_le hle] at hsame
        rw [List.take_of_length_le (Nat.le_succ_of_le hle), hsame]

end

/-- The first `i` lines. -/
def firstLines (i : ℕ) (file : List Char) : List Char := ((linesOf file).take i).flatten

theorem firstLines_length (file : List Char) : firstLines (linesOf file).length file = file := by
  rw [firstLines, List.take_length, linesOf_flatten]

theorem firstLines_iff (file : List Char) :
    (∀ i, ∀ key, loadConfigFile (firstLines i file) key = reference (firstLines i file) key) ↔
      ∀ i (h : i < (linesOf file).length), ∀ key, reference (firstLines i file) key = none →
        ((piecesOf (linesOf file)[i]).filterMap pieceBind).lookup key =
          (lineBind (linesOf file)[i]).toList.lookup key := by
  simp only [loadConfigFile_eq, reference_eq, firstLines, linesOf_take]
  exact first_wins (linesOf file)

/-- **Loading a file.** For every file: the map is the one the file should give, and so it is
for each of its beginnings of whole lines, exactly when each line, for each key that no
earlier line binds, binds the key in its pieces as it does as a whole. -/
theorem load_iff (file : List Char) :
    (loadConfigFile file = reference file ∧ ∀ i, loadConfigFile (firstLines i file) = reference (firstLines i file)) ↔
      ∀ i (h : i < (linesOf file).length), ∀ key, reference (firstLines i file) key = none →
        ((piecesOf (linesOf file)[i]).filterMap pieceBind).lookup key =
          (lineBind (linesOf file)[i]).toList.lookup key := by
  rw [← firstLines_iff]
  constructor
  · intro h i key
    rw [h.2 i]
  · intro h
    have heq : ∀ i, loadConfigFile (firstLines i file) = reference (firstLines i file) := fun i => funext (h i)
    have hfile := heq (linesOf file).length
    rw [firstLines_length] at hfile
    exact ⟨hfile, heq⟩

/-- A value of spaces only, at least one, with a newline behind. -/
def BlankValue (line : List Char) : Prop :=
  line.takeWhile (· ≠ '\n') ≠ line ∧ (∃ key, lineBind line = some (key, [])) ∧
    ((line.takeWhile (· ≠ '\n')).dropWhile (· ≠ '=')).drop 1 ≠ []

/-- What fits into the buffer is read rightly but for such values. -/
theorem load_of_short {file : List Char} (h : ∀ line ∈ linesOf file, line.length ≤ 511 ∧ ¬ BlankValue line) :
    loadConfigFile file = reference file := by
  have hline : ∀ line ∈ linesOf file, (piecesOf line).filterMap pieceBind = (lineBind line).toList := by
    intro line hmem
    obtain ⟨hlen, hvalue⟩ := h line hmem
    rw [piecesOf_short hlen, List.filterMap_eq_flatMap_toList, List.flatMap_singleton, pieceBind]
    congr 1
    cases hbind : lineBind line with
    | none => exact congrArg (Option.map _) hbind
    | some kv =>
      rw [lineBind] at hbind
      rw [hbind, Option.map_some]
      split
      · rename_i hblank
        obtain ⟨key, value⟩ := kv
        obtain ⟨rfl, hnl⟩ := hblank
        by_cases hraw : ((line.takeWhile (· ≠ '\n')).dropWhile (· ≠ '=')).drop 1 = []
        · rw [hraw]
        · exact absurd ⟨hnl, ⟨key, hbind⟩, hraw⟩ hvalue
      · rfl
  have hall := (firstLines_iff file).2 fun i hi key _ => by rw [hline _ (List.getElem_mem hi)]
  funext key
  rw [← firstLines_length file]
  exact hall _ key

/-- `k= ` and a newline: the value is a space. -/
theorem not_loaded_blank : loadConfigFile ['k', '=', ' ', '\n'] ≠ reference ['k', '=', ' ', '\n'] := by
  intro he
  have hlines : linesOf ['k', '=', ' ', '\n'] = [['k', '=', ' ', '\n']] := by decide
  have hkey := congrFun he ['k']
  rw [loadConfigFile_eq, hlines, List.flatMap_singleton, piecesOf_short (by decide)] at hkey
  exact absurd hkey (by decide)

end Learncc.ArpcConf
