/-
`arpc_conf` (src/arpc/arpc_conf.cc): reading a file of `key=value` lines. A `char` is one
byte, and the file has no byte 0.

`fgets` is given 512 bytes, so a longer line is read in pieces, and each piece is taken
for a line of its own. `trim` leaves a string that is all spaces. `parseLine_newline` and
`parseLine_plain` say what one piece binds.
-/
import Mathlib.Data.List.DropRight
import Mathlib.Logic.Function.Basic

namespace Learncc.ArpcConf

/-! ## The code -/

def findFirstNotOf (c : Char) (src : List Char) : Option ℕ := src.findIdx? (· ≠ c)

def findLastNotOf (c : Char) (src : List Char) : Option ℕ :=
  (src.reverse.findIdx? (· ≠ c)).map fun i => src.length - 1 - i

def find (c : Char) (src : List Char) (pos : ℕ) : Option ℕ := ((src.drop pos).findIdx? (· = c)).map (pos + ·)

/-- The first half of `trim`. An `idx` of -1 is not positive. -/
def trimFront (src : List Char) : List Char :=
  match findFirstNotOf ' ' src with
  | some idx => if 0 < idx then src.drop idx else src
  | none => src

/-- The second half. As a `size_t`, an `idx` of -1 is not below `size() - 1`. -/
def trimBack (src : List Char) : List Char :=
  match findLastNotOf ' ' src with
  | some idx => if idx < src.length - 1 then src.take (idx + 1) else src
  | none => src

def trim (src : List Char) : List Char := trimBack (trimFront src)

/-- What one round of the loop inserts. -/
def parseLine (buf : List Char) : Option (List Char × List Char) :=
  let readBuf := trim buf
  if readBuf.head? = some '#' ∨ readBuf = [] then none
  else
    match find '=' readBuf 0 with
    | none => none
    | some idx =>
      let value := match find '\n' readBuf idx with
        | some e => (readBuf.drop (idx + 1)).take (e - idx - 1)
        | none => readBuf.drop (idx + 1)
      some (trim (readBuf.take idx), trim value)

abbrev ConfMap : Type := List Char → Option (List Char)

/-- `std::map::insert` does not replace. -/
def insert (confMap : ConfMap) (kv : List Char × List Char) : ConfMap :=
  if (confMap kv.1).isSome then confMap else Function.update confMap kv.1 (some kv.2)

structure Fgets where
  buf : List Char
  rest : List Char
  feof : Bool

/-- `fgets` with a buffer for `n` bytes and a 0: the end of the file is noticed by reading
on, not before. -/
def fgets : ℕ → List Char → Fgets
  | 0, file => { buf := [], rest := file, feof := false }
  | _ + 1, [] => { buf := [], rest := [], feof := true }
  | n + 1, c :: file =>
    if c = '\n' then { buf := [c], rest := file, feof := false }
    else { fgets n file with buf := c :: (fgets n file).buf }

theorem fgets_rest_length : ∀ (n : ℕ) (file : List Char), (fgets n file).rest.length ≤ file.length
  | 0, _ => Nat.le_refl _
  | _ + 1, [] => Nat.le_refl _
  | n + 1, c :: file => by
    rw [fgets]
    split
    · exact Nat.le_succ _
    · exact Nat.le_succ_of_le (fgets_rest_length n file)

theorem fgets_lt {n : ℕ} {file : List Char} (hn : n ≠ 0) (h : (fgets n file).feof = false) :
    (fgets n file).rest.length < file.length := by
  cases n with
  | zero => exact absurd rfl hn
  | succ n =>
    cases file with
    | nil => cases h
    | cons c file =>
      rw [fgets]
      split
      · exact Nat.lt_succ_self _
      · exact Nat.lt_succ_of_le (fgets_rest_length n file)

/-- The rest of a round, with what `fgets` has read. -/
def round (confMap : ConfMap) (buf : List Char) : ConfMap :=
  match parseLine buf with
  | none => confMap
  | some kv => insert confMap kv

def loadLoop (confMap : ConfMap) (file : List Char) : ConfMap :=
  let r := fgets 511 file
  if _h : r.feof then round confMap r.buf else loadLoop (round confMap r.buf) r.rest
termination_by file.length
decreasing_by exact fgets_lt (by decide) (Bool.eq_false_iff.2 ‹_›)

/-- `load_config_file` of a new `arpc_conf`. -/
def loadConfigFile (file : List Char) : ConfMap := loadLoop (fun _ => none) file

/-! ## What a file should mean -/

def strip (s : List Char) : List Char := (s.dropWhile (· = ' ')).rdropWhile (· = ' ')

/-- What a line binds. -/
def bind (line : List Char) : Option (List Char × List Char) :=
  let line := strip line
  if line = [] ∨ line.head? = some '#' ∨ '=' ∉ line then none
  else some (strip (line.takeWhile (· ≠ '=')), strip ((line.dropWhile (· ≠ '=')).drop 1))

/-- The first binding of a key wins. -/
def reference (file : List Char) : ConfMap := fun key => ((file.splitOn '\n').filterMap bind).lookup key

/-! ## Spaces -/

section

variable {s t u w : List Char}

theorem rdropWhile_cons (p : Char → Bool) (c : Char) (s : List Char) : (c :: s).rdropWhile p =
    if s.rdropWhile p = [] then if p c then [] else [c] else c :: s.rdropWhile p := by
  simp only [List.rdropWhile, List.reverse_cons, List.dropWhile_append, List.isEmpty_iff, List.reverse_eq_nil_iff]
  split
  · rw [List.dropWhile_cons, List.dropWhile_nil]
    split
    · rfl
    · rfl
  · rw [List.reverse_append]
    rfl

/-- What ends the spaces stays. -/
theorem rdropWhile_append_cons {p : Char → Bool} {c : Char} (hc : p c = false) (u w : List Char) :
    (u ++ c :: w).rdropWhile p = u ++ c :: w.rdropWhile p := by
  induction u with
  | nil =>
    rw [List.nil_append, rdropWhile_cons, hc]
    split
    · rename_i hw
      rw [hw]
      rfl
    · rfl
  | cons d u ih => rw [List.cons_append, rdropWhile_cons, ih, if_neg (by simp), List.cons_append]

theorem dropWhile_rdropWhile (p : Char → Bool) (s : List Char) :
    (s.rdropWhile p).dropWhile p = (s.dropWhile p).rdropWhile p := by
  induction s with
  | nil => rfl
  | cons c s ih =>
    rw [rdropWhile_cons]
    cases hc : p c with
    | true =>
      rw [List.dropWhile_cons_of_pos hc, ← ih]
      split
      · rename_i hs
        rw [hs]
        rfl
      · exact List.dropWhile_cons_of_pos hc
    | false =>
      rw [List.dropWhile_cons_of_neg (by simp [hc]), rdropWhile_cons, hc]
      split
      · exact List.dropWhile_cons_of_neg (by simp [hc])
      · exact List.dropWhile_cons_of_neg (by simp [hc])

theorem strip_rdropWhile (s : List Char) : strip (s.rdropWhile (· = ' ')) = strip s := by
  rw [strip, dropWhile_rdropWhile, List.rdropWhile_idempotent, strip]

theorem strip_eq_nil : strip s = [] ↔ ∀ c ∈ s, c = ' ' := by
  rw [strip, List.rdropWhile_eq_nil_iff]
  constructor
  · intro h c hc
    rw [← List.takeWhile_append_dropWhile (p := (· = ' ')) (l := s), List.mem_append] at hc
    rcases hc with hc | hc
    · have hspace := List.mem_takeWhile_imp hc
      exact of_decide_eq_true hspace
    · exact of_decide_eq_true (h c hc)
  · intro h c hc
    exact decide_eq_true (h c ((List.dropWhile_suffix _).subset hc))

theorem findIdx?_ne (h : ¬ ∀ c ∈ s, c = ' ') :
    ∃ idx, s.findIdx? (· ≠ ' ') = some idx ∧ s.drop idx = s.dropWhile (· = ' ') := by
  cases hidx : s.findIdx? (· ≠ ' ') with
  | none =>
    refine absurd (fun c hc => ?_) h
    simpa using List.findIdx?_eq_none_iff.1 hidx c hc
  | some idx =>
    refine ⟨idx, rfl, ?_⟩
    rw [List.dropWhile_eq_drop_findIdx_not]
    have hnot : (fun c : Char => !decide (c = ' ')) = fun c => decide (c ≠ ' ') := by
      funext c
      simp
    rw [hnot, (List.findIdx?_eq_some_iff_findIdx_eq.1 hidx).2]

theorem trimFront_eq (h : ¬ ∀ c ∈ s, c = ' ') : trimFront s = s.dropWhile (· = ' ') := by
  obtain ⟨idx, hidx, hdrop⟩ := findIdx?_ne h
  rw [trimFront, findFirstNotOf, hidx, ← hdrop]
  dsimp only
  split
  · rfl
  · rw [show idx = 0 by omega, List.drop_zero]

theorem trimBack_eq (h : ¬ ∀ c ∈ s, c = ' ') : trimBack s = s.rdropWhile (· = ' ') := by
  have hreverse : ¬ ∀ c ∈ s.reverse, c = ' ' := fun hall => h fun c hc => hall c (List.mem_reverse.2 hc)
  obtain ⟨i, hi, hdrop⟩ := findIdx?_ne hreverse
  have hlt := (List.findIdx?_eq_some_iff_findIdx_eq.1 hi).1
  rw [List.length_reverse] at hlt
  rw [trimBack, findLastNotOf, hi, List.rdropWhile, ← hdrop, List.drop_reverse, List.reverse_reverse]
  dsimp only [Option.map_some]
  split
  · congr 1
    omega
  · rw [show i = 0 by omega, Nat.sub_zero, List.take_length]

/-- `trim` strips what is not all spaces. -/
theorem trim_eq (s : List Char) : trim s = if strip s = [] then s else strip s := by
  split
  · rename_i hblank
    rw [strip_eq_nil] at hblank
    have hfirst : findFirstNotOf ' ' s = none := List.findIdx?_eq_none_iff.2 fun c hc => by simp [hblank c hc]
    have hlast : findLastNotOf ' ' s = none := by
      rw [findLastNotOf, Option.map_eq_none_iff]
      exact List.findIdx?_eq_none_iff.2 fun c hc => by simp [hblank c (List.mem_reverse.1 hc)]
    have hfront : trimFront s = s := by rw [trimFront, hfirst]
    rw [trim, hfront, trimBack, hlast]
  · rename_i hne
    have hrest : ¬ ∀ c ∈ s.dropWhile (· = ' '), c = ' ' := by
      intro hall
      exact hne (List.rdropWhile_eq_nil_iff.2 fun c hc => decide_eq_true (hall c hc))
    rw [strip_eq_nil] at hne
    rw [trim, trimFront_eq hne, trimBack_eq hrest, strip]

/-! ## One piece -/

/-- What a piece binds: what it binds as a line, but an empty value before a newline keeps
its spaces. -/
def pieceBind (piece : List Char) : Option (List Char × List Char) :=
  let line := piece.takeWhile (· ≠ '\n')
  (bind line).map fun kv =>
    if kv.2 = [] ∧ line ≠ piece then (kv.1, (line.dropWhile (· ≠ '=')).drop 1) else kv

theorem findIdx?_not_mem {c : Char} (h : c ∉ u) : u.findIdx? (· = c) = none :=
  List.findIdx?_eq_none_iff.2 fun _ hd => decide_eq_false fun he => h (he ▸ hd)

theorem findIdx?_split {c : Char} (h : c ∉ u) (w : List Char) : (u ++ c :: w).findIdx? (· = c) = some u.length := by
  rw [List.findIdx?_append, findIdx?_not_mem h, Option.none_or, List.findIdx?_cons, if_pos (decide_eq_true rfl)]
  exact congrArg some (Nat.zero_add _)

theorem parseLine_none {buf : List Char} (h : (trim buf).head? = some '#' ∨ '=' ∉ trim buf) : parseLine buf = none := by
  rw [parseLine]
  dsimp only
  split
  · rfl
  · rename_i hne
    have hmem : '=' ∉ trim buf := h.resolve_left fun hhash => hne (.inl hhash)
    rw [find, List.drop_zero, findIdx?_not_mem hmem]
    rfl

/-- The key and the value in a piece that has both; `e` is what comes of the newline. -/
theorem parseLine_split {buf e : List Char} (hbuf : trim buf = u ++ '=' :: (w ++ e)) (hu : '=' ∉ u) (hw : '\n' ∉ w)
    (he : e = [] ∨ e = ['\n']) (hhash : (trim buf).head? ≠ some '#') : parseLine buf = some (trim u, trim w) := by
  have hne : ¬ ((trim buf).head? = some '#' ∨ trim buf = []) := by
    rw [not_or]
    refine ⟨hhash, fun hnil => ?_⟩
    rw [hbuf] at hnil
    exact List.cons_ne_nil _ _ (List.append_eq_nil_iff.1 hnil).2
  rw [parseLine]
  dsimp only
  rw [if_neg hne, hbuf, find, List.drop_zero, findIdx?_split hu, Option.map_some, Nat.zero_add]
  dsimp only
  rw [List.take_left, find, List.drop_left, ← List.drop_drop, List.drop_left, List.drop_succ_cons, List.drop_zero]
  rcases he with rfl | rfl
  · rw [List.append_nil, findIdx?_not_mem]
    · rfl
    · rw [List.mem_cons, not_or]
      exact ⟨by decide, hw⟩
  · have hmem : '\n' ∉ '=' :: w := by
      rw [List.mem_cons, not_or]
      exact ⟨by decide, hw⟩
    rw [← List.cons_append, findIdx?_split hmem, Option.map_some, List.length_cons]
    dsimp only
    rw [show u.length + (w.length + 1) - u.length - 1 = w.length by omega, List.take_left]

theorem bind_none {line : List Char} (h : strip line = [] ∨ (strip line).head? = some '#' ∨ '=' ∉ strip line) :
    bind line = none := if_pos h

theorem takeWhile_ne {c : Char} (h : c ∉ u) (w : List Char) : (u ++ c :: w).takeWhile (· ≠ c) = u := by
  have hu : ∀ d ∈ u, decide (d ≠ c) = true := fun d hd => decide_eq_true fun he => h (he ▸ hd)
  rw [List.takeWhile_append_of_pos hu, List.takeWhile_cons_of_neg (by simp), List.append_nil]

theorem dropWhile_ne {c : Char} (h : c ∉ u) (w : List Char) : (u ++ c :: w).dropWhile (· ≠ c) = c :: w := by
  have hu : ∀ d ∈ u, decide (d ≠ c) = true := fun d hd => decide_eq_true fun he => h (he ▸ hd)
  rw [List.dropWhile_append_of_pos hu, List.dropWhile_cons_of_neg (by simp)]

theorem bind_split {line : List Char} (hline : strip line = u ++ '=' :: w) (hu : '=' ∉ u)
    (hhash : (strip line).head? ≠ some '#') : bind line = some (strip u, strip w) := by
  have hne : ¬ (strip line = [] ∨ (strip line).head? = some '#' ∨ '=' ∉ strip line) := by
    rw [not_or, not_or]
    refine ⟨fun hnil => ?_, hhash, not_not_intro ?_⟩
    · rw [hline] at hnil
      exact List.cons_ne_nil _ _ (List.append_eq_nil_iff.1 hnil).2
    · rw [hline]
      exact List.mem_append_right _ List.mem_cons_self
  rw [bind, if_neg hne, hline, takeWhile_ne hu, dropWhile_ne hu]
  rfl

/-- No spaces in front, none left to strip there. -/
theorem trim_of_front (h : (u ++ w).dropWhile (· = ' ') = u ++ w) : trim u = strip u := by
  cases u with
  | nil => rfl
  | cons c u =>
    have hc : c ≠ ' ' := by
      intro hc
      have hlen := congrArg List.length h
      rw [List.cons_append, List.dropWhile_cons_of_pos (p := (· = ' ')) (decide_eq_true hc)] at hlen
      have hle := (List.dropWhile_suffix (· = ' ') (l := u ++ w)).length_le
      rw [List.length_cons] at hlen
      omega
    rw [trim_eq, if_neg]
    intro hnil
    exact hc (strip_eq_nil.1 hnil c List.mem_cons_self)

theorem head?_split (u w : List Char) : (u ++ '=' :: w).head? = (u ++ ['=']).head? := by
  cases u with
  | nil => rfl
  | cons c u => rfl

/-- A piece that trims to the text of a line, up to spaces behind the value and the newline
`e`: it binds the key of the line, if the line binds one. -/
theorem parseLine_bind {buf line w' e : List Char} (htrim : trim buf = u ++ '=' :: (w ++ e))
    (hline : strip line = u ++ '=' :: w') (hu : '=' ∉ u) (hw : '\n' ∉ w) (he : e = [] ∨ e = ['\n'])
    (hfront : (u ++ '=' :: w').dropWhile (· = ' ') = u ++ '=' :: w') :
    (parseLine buf = (bind line).map fun kv => (kv.1, trim w)) ∧ ∀ kv ∈ bind line, kv.2 = strip w' := by
  by_cases hhash : (u ++ ['=']).head? = some '#'
  · have hnone : bind line = none := bind_none (.inr (.inl (by rw [hline, head?_split, hhash])))
    rw [parseLine_none (.inl (by rw [htrim, head?_split, hhash])), hnone]
    exact ⟨rfl, fun kv hkv => absurd hkv (Option.not_mem_none kv)⟩
  · have hbind := bind_split hline hu (by rwa [hline, head?_split])
    rw [parseLine_split htrim hu hw he (by rwa [htrim, head?_split]), hbind, trim_of_front hfront]
    refine ⟨rfl, fun kv hkv => ?_⟩
    rw [← Option.mem_some_iff.1 hkv]

/-- The piece that ends a line. -/
theorem parseLine_newline {c : List Char} (hc : '\n' ∉ c) : parseLine (c ++ ['\n']) = pieceBind (c ++ ['\n']) := by
  have htake : (c ++ ['\n']).takeWhile (· ≠ '\n') = c := takeWhile_ne hc []
  have hne : c ≠ c ++ ['\n'] := fun he => by simpa using congrArg List.length he
  have hstrip : strip (c ++ ['\n']) = c.dropWhile (· = ' ') ++ ['\n'] := by
    rw [strip, List.dropWhile_append]
    split
    · rename_i hempty
      rw [List.isEmpty_iff.1 hempty]
      rfl
    · exact List.rdropWhile_concat_neg _ _ _ (by decide)
  have htrim : trim (c ++ ['\n']) = c.dropWhile (· = ' ') ++ ['\n'] := by
    rw [trim_eq, if_neg, hstrip]
    rw [hstrip]
    exact List.append_ne_nil_of_right_ne_nil _ (List.cons_ne_nil _ _)
  have hstrip' : strip c = (c.dropWhile (· = ' ')).rdropWhile (· = ' ') := rfl
  rw [pieceBind, htake]
  by_cases hmem : '=' ∈ c.dropWhile (· = ' ')
  · obtain ⟨u, w, hx, hu⟩ := List.eq_append_cons_of_mem hmem
    have hc' : c = (c.takeWhile (· = ' ') ++ u) ++ '=' :: w := by
      rw [List.append_assoc, ← hx, List.takeWhile_append_dropWhile]
    have hfront : '=' ∉ c.takeWhile (· = ' ') ++ u := by
      rw [List.mem_append, not_or]
      refine ⟨fun h => ?_, hu⟩
      have hspace := List.mem_takeWhile_imp h
      exact absurd hspace (by decide)
    have hw : '\n' ∉ w := by
      intro h
      rw [hc'] at hc
      exact hc (List.mem_append_right _ (List.mem_cons_of_mem _ h))
    rw [hx] at htrim hstrip'
    rw [rdropWhile_append_cons (by decide)] at hstrip'
    rw [List.append_assoc, List.cons_append] at htrim
    have hraw : (c.dropWhile (· ≠ '=')).drop 1 = w := by
      conv_lhs => rw [hc']
      rw [dropWhile_ne hfront]
      rfl
    have hspaces : (u ++ '=' :: w.rdropWhile (· = ' ')).dropWhile (· = ' ') = u ++ '=' :: w.rdropWhile (· = ' ') := by
      rw [← hstrip', strip, dropWhile_rdropWhile, List.dropWhile_idempotent]
    obtain ⟨hparse, hvalue⟩ := parseLine_bind htrim hstrip' hu hw (.inr rfl) hspaces
    rw [hparse]
    refine Option.map_congr fun kv hkv => ?_
    have hkv2 := hvalue kv hkv
    rw [strip_rdropWhile] at hkv2
    rw [trim_eq w, ← hkv2]
    split
    · rename_i hblank
      rw [if_pos ⟨hblank, hne⟩, hraw]
    · rename_i hblank
      rw [if_neg fun h => hblank h.1]
  · have hbuf : '=' ∉ trim (c ++ ['\n']) := by
      rw [htrim, List.mem_append, not_or]
      exact ⟨hmem, by decide⟩
    have hline : '=' ∉ strip c := fun h => hmem ((List.rdropWhile_prefix _ _).subset h)
    rw [parseLine_none (.inr hbuf), bind_none (.inr (.inr hline))]
    rfl

/-- A piece without a newline. -/
theorem parseLine_plain {c : List Char} (hc : '\n' ∉ c) : parseLine c = pieceBind c := by
  have htake : c.takeWhile (· ≠ '\n') = c :=
    List.takeWhile_eq_self_iff.2 fun d hd => decide_eq_true fun he => hc (he ▸ hd)
  have hbind : pieceBind c = bind c := by
    rw [pieceBind, htake]
    simp
  rw [hbind]
  by_cases hblank : strip c = []
  · have htrim : trim c = c := by rw [trim_eq, if_pos hblank]
    have hbuf : '=' ∉ trim c := by
      rw [htrim]
      exact fun h => absurd (strip_eq_nil.1 hblank _ h) (by decide)
    rw [parseLine_none (.inr hbuf), bind_none (.inl hblank)]
  · have htrim : trim c = strip c := by rw [trim_eq, if_neg hblank]
    by_cases hmem : '=' ∈ strip c
    · obtain ⟨u, w, hsplit, hu⟩ := List.eq_append_cons_of_mem hmem
      have hw : '\n' ∉ w := by
        intro h
        refine hc ((List.dropWhile_suffix (· = ' ')).subset ((List.rdropWhile_prefix (· = ' ') _).subset ?_))
        show '\n' ∈ strip c
        rw [hsplit]
        exact List.mem_append_right _ (List.mem_cons_of_mem _ h)
      rw [hsplit] at htrim
      have hfront : (u ++ '=' :: w).dropWhile (· = ' ') = u ++ '=' :: w := by
        rw [← hsplit, strip, dropWhile_rdropWhile, List.dropWhile_idempotent]
      have hvalue : trim w = strip w := by
        rw [trim_eq]
        split
        · rename_i hspaces
          have hright : (strip c).rdropWhile (· = ' ') = strip c := List.rdropWhile_idempotent _ _
          rw [hsplit, rdropWhile_append_cons (by decide)] at hright
          have hnil : w.rdropWhile (· = ' ') = [] :=
            List.rdropWhile_eq_nil_iff.2 fun d hd => decide_eq_true (strip_eq_nil.1 hspaces d hd)
          rw [hspaces, ← hnil]
          exact (List.cons.inj (List.append_cancel_left hright)).2.symm
        · rfl
      have htrim' : trim c = u ++ '=' :: (w ++ []) := by rw [htrim, List.append_nil]
      obtain ⟨hparse, hbound⟩ := parseLine_bind htrim' hsplit hu hw (.inl rfl) hfront
      rw [hparse, hvalue]
      cases hline : bind c with
      | none => rfl
      | some kv => rw [Option.map_some, ← hbound kv hline]
    · rw [parseLine_none (.inr (by rwa [htrim])), bind_none (.inr (.inr hmem))]

end

end Learncc.ArpcConf
