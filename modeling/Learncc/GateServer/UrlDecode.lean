/-
Which request targets `parse_getparam` accepts (src/gateserver/http_conn.cc).

`parseGetparam_iff`: those in which each `%` of a key or a value has two
hexadecimal digits behind it. On the others an assertion fails, or a letter from `G` on
counts as a digit.
-/
import Learncc.GateServer.HttpConn
import Mathlib.Data.List.Forall2
import Mathlib.Data.List.Infix

namespace Learncc.GateServer

/-! ## Escapes -/

/-- The value of a hexadecimal digit. -/
def hexValue (c : UInt8) : Option UInt8 :=
  if 48 ≤ c ∧ c ≤ 57 then some (c - 48)
  else if 65 ≤ c ∧ c ≤ 70 then some (c - 55)
  else if 97 ≤ c ∧ c ≤ 102 then some (c - 87)
  else none

/-- The value of the two digits a string starts with. -/
def escapeValue : Bytes → Option UInt8
  | h :: l :: _ => (hexValue h).bind fun high => (hexValue l).map fun low => high * 16 + low
  | _ => none

/-- Behind each `%` there are two digits. -/
def WellEscaped (str : Bytes) : Prop := ∀ rest, 37 :: rest <:+ str → (escapeValue rest).isSome

/-- What a string may be decoded to: an escape is the value of its two digits, and a `%`
without them is no byte. -/
inductive Decodes : Bytes → Bytes → Prop
  | nil : Decodes [] []
  | plus {rest out : Bytes} : Decodes rest out → Decodes (43 :: rest) (32 :: out)
  | escape {rest out : Bytes} {byte : UInt8} :
      escapeValue rest = some byte → Decodes (rest.drop 2) out → Decodes (37 :: rest) (byte :: out)
  | malformed {rest out : Bytes} : escapeValue rest = none → Decodes rest out → Decodes (37 :: rest) out
  | plain {c : UInt8} {rest out : Bytes} : c ≠ 43 → c ≠ 37 → Decodes rest out → Decodes (c :: rest) (c :: out)

/-! ## One string -/

theorem fromHex_of_hexValue {c x : UInt8} (h : hexValue c = some x) : fromHex c = some x :=
  byte_forall (P := fun c => ∀ x ∈ hexValue c, fromHex c = some x) (by decide +kernel) c x h

/-- What `from_hex` accepts is no sign of its own. -/
theorem fromHex_ne {c x : UInt8} (h : fromHex c = some x) : c ≠ 43 ∧ c ≠ 37 :=
  byte_forall (P := fun c => ∀ x ∈ fromHex c, c ≠ 43 ∧ c ≠ 37) (by decide +kernel) c x h

theorem escapeValue_cons {h l byte : UInt8} {rest : Bytes} (he : escapeValue (h :: l :: rest) = some byte) :
    ∃ high low, hexValue h = some high ∧ hexValue l = some low ∧ byte = high * 16 + low := by
  obtain ⟨high, hhigh, he⟩ := Option.bind_eq_some_iff.1 he
  obtain ⟨low, hlow, he⟩ := Option.map_eq_some_iff.1 he
  exact ⟨high, low, hhigh, hlow, he.symm⟩

theorem wellEscaped_nil : WellEscaped [] := by
  intro rest h
  cases List.suffix_nil.1 h

theorem wellEscaped_cons {c : UInt8} {rest : Bytes} :
    WellEscaped (c :: rest) ↔ (c = 37 → (escapeValue rest).isSome) ∧ WellEscaped rest := by
  constructor
  · intro h
    exact ⟨fun hc => h rest (hc ▸ List.suffix_refl _), fun r hr => h r (hr.trans (List.suffix_cons c rest))⟩
  · intro h r hr
    rcases List.suffix_cons_iff.1 hr with heq | hsuffix
    · injection heq with hc hrest
      exact hrest ▸ h.1 hc.symm
    · exact h.2 r hsuffix

theorem wellEscaped_plain {c : UInt8} {rest : Bytes} (hc : c ≠ 37) : WellEscaped (c :: rest) ↔ WellEscaped rest := by
  rw [wellEscaped_cons]
  exact and_iff_right fun he => absurd he hc

theorem urlDecode_plus (rest : Bytes) : urlDecode (43 :: rest) = (urlDecode rest).map (32 :: ·) := by
  rw [urlDecode.eq_def]
  exact if_pos rfl

theorem urlDecode_plain {c : UInt8} (hplus : c ≠ 43) (hpercent : c ≠ 37) (rest : Bytes) :
    urlDecode (c :: rest) = (urlDecode rest).map (c :: ·) := by
  rw [urlDecode.eq_def]
  dsimp only
  rw [if_neg hplus, if_neg hpercent]

theorem urlDecode_percent (h l : UInt8) (rest : Bytes) :
    urlDecode (37 :: h :: l :: rest) = (fromHex h).bind fun high =>
      (fromHex l).bind fun low => (urlDecode rest).map ((high * 16 + low) :: ·) := by
  rw [urlDecode.eq_def]
  dsimp only
  rw [if_neg (by decide), if_pos rfl]

/-- The assertion on the length. -/
theorem urlDecode_short {rest : Bytes} (hshort : ∀ h l r, rest = h :: l :: r → False) :
    urlDecode (37 :: rest) = none := by
  rw [urlDecode.eq_def]
  dsimp only
  rw [if_neg (by decide), if_pos rfl]
  split
  · rename_i h l r
    exact absurd rfl (hshort h l r)
  · rfl

theorem escapeValue_short {rest : Bytes} (hshort : ∀ h l r, rest = h :: l :: r → False) : escapeValue rest = none := by
  rw [escapeValue.eq_def]
  split
  · rename_i h l r
    exact absurd rfl (hshort h l r)
  · rfl

/-- A string that is well escaped is decoded, and rightly. -/
theorem urlDecode_wellEscaped (str : Bytes) (hstr : WellEscaped str) :
    ∃ out, urlDecode str = some out ∧ Decodes str out := by
  induction str using urlDecode.induct with
  | case1 => exact ⟨[], rfl, .nil⟩
  | case2 rest ih =>
    obtain ⟨out, hout, hdecodes⟩ := ih (wellEscaped_cons.1 hstr).2
    exact ⟨32 :: out, by rw [urlDecode_plus, hout, Option.map_some], .plus hdecodes⟩
  | case3 h l rest _ ih =>
    obtain ⟨hvalue, htail⟩ := wellEscaped_cons.1 hstr
    obtain ⟨byte, hbyte⟩ := Option.isSome_iff_exists.1 (hvalue rfl)
    obtain ⟨high, low, hhigh, hlow, rfl⟩ := escapeValue_cons hbyte
    obtain ⟨out, hout, hdecodes⟩ := ih (wellEscaped_cons.1 (wellEscaped_cons.1 htail).2).2
    refine ⟨(high * 16 + low) :: out, ?_, .escape hbyte hdecodes⟩
    rw [urlDecode_percent, fromHex_of_hexValue hhigh, fromHex_of_hexValue hlow, hout]
    rfl
  | case4 rest hshort _ =>
    have hvalue := (wellEscaped_cons.1 hstr).1 rfl
    rw [escapeValue_short hshort] at hvalue
    cases hvalue
  | case5 c rest hplus hpercent ih =>
    obtain ⟨out, hout, hdecodes⟩ := ih (wellEscaped_cons.1 hstr).2
    exact ⟨c :: out, by rw [urlDecode_plain hplus hpercent, hout, Option.map_some], .plain hplus hpercent hdecodes⟩

theorem decodes_plain {c : UInt8} {rest out : Bytes} (hplus : c ≠ 43) (hpercent : c ≠ 37)
    (h : Decodes (c :: rest) out) : ∃ out', out = c :: out' ∧ Decodes rest out' := by
  cases h with
  | plus => exact absurd rfl hplus
  | escape => exact absurd rfl hpercent
  | malformed => exact absurd rfl hpercent
  | plain _ _ hrest => exact ⟨_, rfl, hrest⟩

/-- Where an escape is malformed and nothing fails, `url_decode` makes one byte of three. A
right answer is longer. -/
theorem urlDecode_length (str : Bytes) {out out' : Bytes} (hout : urlDecode str = some out)
    (hright : Decodes str out') : out.length ≤ out'.length ∧ (out.length = out'.length → WellEscaped str) := by
  induction str using urlDecode.induct generalizing out out' with
  | case1 =>
    cases hout
    exact ⟨Nat.zero_le _, fun _ => wellEscaped_nil⟩
  | case2 rest ih =>
    rw [urlDecode_plus] at hout
    obtain ⟨tail, htail, rfl⟩ := Option.map_eq_some_iff.1 hout
    cases hright with
    | plus hrest =>
      obtain ⟨hle, heq⟩ := ih htail hrest
      refine ⟨Nat.succ_le_succ hle, fun he => ?_⟩
      exact (wellEscaped_plain (by decide)).2 (heq (Nat.succ.inj he))
    | plain hplus => exact absurd rfl hplus
  | case3 h l rest _ ih =>
    rw [urlDecode_percent] at hout
    obtain ⟨high, hhigh, hout⟩ := Option.bind_eq_some_iff.1 hout
    obtain ⟨low, hlow, hout⟩ := Option.bind_eq_some_iff.1 hout
    obtain ⟨tail, htail, rfl⟩ := Option.map_eq_some_iff.1 hout
    obtain ⟨hplusH, hpercentH⟩ := fromHex_ne hhigh
    obtain ⟨hplusL, hpercentL⟩ := fromHex_ne hlow
    cases hright with
    | escape hbyte hrest =>
      obtain ⟨hle, heq⟩ := ih htail hrest
      refine ⟨Nat.succ_le_succ hle, fun he => wellEscaped_cons.2 ⟨fun _ => ?_, ?_⟩⟩
      · rw [hbyte]
        rfl
      · exact (wellEscaped_plain hpercentH).2 ((wellEscaped_plain hpercentL).2 (heq (Nat.succ.inj he)))
    | malformed _ hrest =>
      obtain ⟨out₁, rfl, hfirst⟩ := decodes_plain hplusH hpercentH hrest
      obtain ⟨out₂, rfl, hsecond⟩ := decodes_plain hplusL hpercentL hfirst
      have hle := (ih htail hsecond).1
      simp only [List.length_cons]
      exact ⟨by omega, fun he => by omega⟩
    | plain _ hpercent => exact absurd rfl hpercent
  | case4 rest hshort _ =>
    rw [urlDecode_short hshort] at hout
    cases hout
  | case5 c rest hplus hpercent ih =>
    rw [urlDecode_plain hplus hpercent] at hout
    obtain ⟨tail, htail, rfl⟩ := Option.map_eq_some_iff.1 hout
    obtain ⟨out₁, rfl, hrest⟩ := decodes_plain hplus hpercent hright
    obtain ⟨hle, heq⟩ := ih htail hrest
    refine ⟨Nat.succ_le_succ hle, fun he => ?_⟩
    exact (wellEscaped_plain hpercent).2 (heq (Nat.succ.inj he))

theorem urlDecode_iff (str : Bytes) : (∃ out, urlDecode str = some out ∧ Decodes str out) ↔ WellEscaped str := by
  constructor
  · intro h
    obtain ⟨out, hout, hright⟩ := h
    exact (urlDecode_length str hout hright).2 rfl
  · exact urlDecode_wellEscaped str

/-! ## The pairs of a target -/

/-- Key and value, when there is a `=`. -/
def splitPair (piece : Bytes) : Option (Bytes × Bytes) :=
  (find 61 piece).map fun eqPos => (piece.take eqPos, piece.drop (eqPos + 1))

/-- What stands between the `&` behind the first `?`. -/
def pairsOf (uri : Bytes) : List (Bytes × Bytes) :=
  match find 63 uri with
  | none => []
  | some queryPos => ((uri.drop (queryPos + 1)).splitOn 38).filterMap splitPair

/-- A pair as `url_decode` reads it. -/
def Read (pair decoded : Bytes × Bytes) : Prop :=
  urlDecode pair.1 = some decoded.1 ∧ urlDecode pair.2 = some decoded.2

theorem find_split {c : UInt8} {str : Bytes} {pos : ℕ} (h : find c str = some pos) :
    str = str.take pos ++ c :: str.drop (pos + 1) ∧ ∀ x ∈ str.take pos, x ≠ c := by
  obtain ⟨hpos, hc, hbefore⟩ := List.findIdx?_eq_some_iff_getElem.1 h
  have hc : str[pos] = c := of_decide_eq_true hc
  constructor
  · rw [← hc, List.getElem_cons_drop, List.take_append_drop]
  · intro x hx he
    obtain ⟨j, hj, rfl⟩ := List.mem_take_iff_getElem.1 hx
    exact hbefore j (Nat.lt_of_lt_of_le hj (Nat.min_le_left _ _)) (decide_eq_true he)

theorem splitOn_of_find {str : Bytes} {pos : ℕ} (h : find 38 str = some pos) :
    str.splitOn 38 = str.take pos :: (str.drop (pos + 1)).splitOn 38 := by
  obtain ⟨hstr, hbefore⟩ := find_split h
  have hpiece : ∀ x ∈ str.take pos, (x == 38) = false := fun x hx => beq_false_of_ne (hbefore x hx)
  have hsplit := List.splitOnP_append_cons_of_forall_mem hpiece 38 (beq_self_eq_true 38) (str.drop (pos + 1))
  rwa [← hstr] at hsplit

theorem splitOn_of_none {str : Bytes} (h : find 38 str = none) : str.splitOn 38 = [str] := by
  refine List.splitOnP_eq_singleton fun x hx => beq_false_of_ne ?_
  exact of_decide_eq_false (List.findIdx?_eq_none_iff.1 h x hx)

/-- A piece sets its parameter, if it has one. -/
theorem setParam_eq_some {params params' : Bytes → Option Bytes} {piece : Bytes} :
    setParam params piece = some params' ↔
      splitPair piece = none ∧ params' = params ∨
        ∃ pair decoded, splitPair piece = some pair ∧ Read pair decoded ∧
          params' = Function.update params decoded.1 (some decoded.2) := by
  unfold setParam splitPair
  cases find 61 piece with
  | none =>
    constructor
    · intro h
      exact .inl ⟨rfl, (Option.some.inj h).symm⟩
    · intro h
      rcases h with ⟨-, rfl⟩ | ⟨pair, decoded, hpair, -⟩
      · rfl
      · cases hpair
  | some eqPos =>
    constructor
    · intro h
      obtain ⟨key, hkey, h⟩ := Option.bind_eq_some_iff.1 h
      obtain ⟨value, hvalue, h⟩ := Option.map_eq_some_iff.1 h
      exact .inr ⟨_, (key, value), rfl, ⟨hkey, hvalue⟩, h.symm⟩
    · intro h
      rcases h with ⟨hnone, -⟩ | ⟨pair, decoded, hpair, ⟨hkey, hvalue⟩, rfl⟩
      · cases hnone
      · cases hpair
        exact Option.bind_eq_some_iff.2 ⟨_, hkey, Option.map_eq_some_iff.2 ⟨_, hvalue, rfl⟩⟩

/-- The pieces one after another. -/
theorem setParams_eq_some {params params' : Bytes → Option Bytes} {pieces : List Bytes} :
    pieces.foldlM setParam params = some params' ↔
      ∃ decoded, List.Forall₂ Read (pieces.filterMap splitPair) decoded ∧ params' = setPairs params decoded := by
  induction pieces generalizing params with
  | nil =>
    constructor
    · intro h
      exact ⟨[], .nil, (Option.some.inj h).symm⟩
    · intro h
      obtain ⟨decoded, hread, rfl⟩ := h
      cases hread
      rfl
  | cons piece pieces ih =>
    rw [List.foldlM_cons, Option.bind_eq_bind, Option.bind_eq_some_iff]
    constructor
    · intro h
      obtain ⟨params₁, hset, hrest⟩ := h
      obtain ⟨decoded, hread, rfl⟩ := ih.1 hrest
      rcases setParam_eq_some.1 hset with ⟨hnone, rfl⟩ | ⟨pair, d, hpair, hd, rfl⟩
      · exact ⟨decoded, by rwa [List.filterMap_cons_none hnone], rfl⟩
      · exact ⟨d :: decoded, by rw [List.filterMap_cons_some hpair]; exact .cons hd hread, rfl⟩
    · intro h
      obtain ⟨decoded, hread, rfl⟩ := h
      cases hpair : splitPair piece with
      | none =>
        rw [List.filterMap_cons_none hpair] at hread
        exact ⟨params, setParam_eq_some.2 (.inl ⟨hpair, rfl⟩), ih.2 ⟨decoded, hread, rfl⟩⟩
      | some pair =>
        rw [List.filterMap_cons_some hpair] at hread
        cases hread with
        | cons hd hread =>
          exact ⟨_, setParam_eq_some.2 (.inr ⟨pair, _, hpair, hd, rfl⟩), ih.2 ⟨_, hread, rfl⟩⟩

/-- The loop and what follows it treat all pieces alike. -/
theorem paramLoop_splitOn (params : Bytes → Option Bytes) (query : Bytes) :
    ((paramLoop params query).bind fun r => if r.2 ≠ [] then setParam r.1 r.2 else some r.1) =
      (query.splitOn 38).foldlM setParam params := by
  induction params, query using paramLoop.induct with
  | case1 params query hnone =>
    have hloop : paramLoop params query = some (params, query) := by
      rw [paramLoop]
      split
      · rfl
      · rename_i hfind
        rw [hnone] at hfind
        cases hfind
    rw [hloop, splitOn_of_none hnone, List.foldlM_cons, Option.bind_eq_bind, Option.bind_some]
    have hpure : ∀ o : Option (Bytes → Option Bytes), (o.bind fun params => [].foldlM setParam params) = o :=
      fun o => Option.bind_fun_some o
    rw [hpure]
    by_cases hquery : query = []
    · subst hquery
      rfl
    · exact if_pos hquery
  | case2 params query pos hfind ih =>
    have hloop : paramLoop params query =
        (setParam params (query.take pos)).bind fun params => paramLoop params (query.drop (pos + 1)) := by
      rw [paramLoop]
      split
      · rename_i hnone
        rw [hfind] at hnone
        cases hnone
      · rename_i pos' hfind'
        rw [hfind] at hfind'
        cases hfind'
        rfl
    rw [hloop, splitOn_of_find hfind, List.foldlM_cons, Option.bind_eq_bind, Option.bind_assoc]
    exact congrArg _ (funext ih)

theorem parseGetparam_eq_some {conn conn' : HttpConn} {uri : Bytes} :
    parseGetparam conn uri = some conn' ↔ ∃ decoded, List.Forall₂ Read (pairsOf uri) decoded ∧ conn' = {
      getUrl := uri.take ((find 63 uri).getD uri.length)
      getParams := setPairs conn.getParams decoded } := by
  unfold parseGetparam pairsOf
  cases find 63 uri with
  | none =>
    constructor
    · intro h
      refine ⟨[], .nil, ?_⟩
      rw [← Option.some.inj h, Option.getD_none, List.take_length]
      rfl
    · intro h
      obtain ⟨decoded, hread, rfl⟩ := h
      cases hread
      rw [Option.getD_none, List.take_length]
      rfl
  | some queryPos =>
    have hloop := paramLoop_splitOn conn.getParams (uri.drop (queryPos + 1))
    have hset : ((paramLoop conn.getParams (uri.drop (queryPos + 1))).bind fun r =>
        (if r.2 ≠ [] then setParam r.1 r.2 else some r.1).map fun getParams =>
          ({ getUrl := uri.take queryPos, getParams } : HttpConn)) =
        (((uri.drop (queryPos + 1)).splitOn 38).foldlM setParam conn.getParams).map fun getParams =>
          { getUrl := uri.take queryPos, getParams } := by
      rw [← hloop, Option.map_bind]
      rfl
    dsimp only
    rw [hset, Option.map_eq_some_iff]
    constructor
    · intro h
      obtain ⟨params, hparams, rfl⟩ := h
      obtain ⟨decoded, hread, rfl⟩ := setParams_eq_some.1 hparams
      exact ⟨decoded, hread, rfl⟩
    · intro h
      obtain ⟨decoded, hread, rfl⟩ := h
      exact ⟨_, setParams_eq_some.2 ⟨decoded, hread, rfl⟩, rfl⟩

theorem exists_forall₂_iff {α β : Type} {R : α → β → Prop} (as : List α) :
    (∃ bs, List.Forall₂ R as bs) ↔ ∀ a ∈ as, ∃ b, R a b := by
  induction as with
  | nil => exact iff_of_true ⟨[], .nil⟩ fun a ha => absurd ha List.not_mem_nil
  | cons a as ih =>
    rw [List.forall_mem_cons, ← ih]
    constructor
    · intro h
      obtain ⟨bs, hbs⟩ := h
      cases hbs with
      | cons hb hbs => exact ⟨⟨_, hb⟩, _, hbs⟩
    · intro h
      obtain ⟨⟨b, hb⟩, bs, hbs⟩ := h
      exact ⟨b :: bs, .cons hb hbs⟩

/-- **Which targets are accepted.** `parse_getparam` returns, with parameters in which each
escape is the value of its two digits, exactly when each `%` in the key or the value of a
pair has two hexadecimal digits behind it. -/
theorem parseGetparam_iff (conn : HttpConn) (uri : Bytes) :
    (∃ conn' decoded, parseGetparam conn uri = some conn' ∧ conn'.getParams = setPairs conn.getParams decoded ∧
      List.Forall₂ (fun pair d => Read pair d ∧ Decodes pair.1 d.1 ∧ Decodes pair.2 d.2) (pairsOf uri) decoded) ↔
      ∀ pair ∈ pairsOf uri, WellEscaped pair.1 ∧ WellEscaped pair.2 := by
  have hpair : ∀ pair, (∃ d, Read pair d ∧ Decodes pair.1 d.1 ∧ Decodes pair.2 d.2) ↔
      WellEscaped pair.1 ∧ WellEscaped pair.2 := by
    intro pair
    rw [← urlDecode_iff, ← urlDecode_iff]
    constructor
    · intro h
      obtain ⟨d, ⟨hkey, hvalue⟩, hright⟩ := h
      exact ⟨⟨d.1, hkey, hright.1⟩, ⟨d.2, hvalue, hright.2⟩⟩
    · intro h
      obtain ⟨⟨key, hkey, hright⟩, ⟨value, hvalue, hright'⟩⟩ := h
      exact ⟨(key, value), ⟨hkey, hvalue⟩, hright, hright'⟩
  have hpairs := exists_forall₂_iff (R := fun pair d => Read pair d ∧ Decodes pair.1 d.1 ∧ Decodes pair.2 d.2)
    (pairsOf uri)
  constructor
  · intro h pair hmem
    obtain ⟨conn', decoded, -, -, hall⟩ := h
    exact (hpair pair).1 (hpairs.1 ⟨decoded, hall⟩ pair hmem)
  · intro h
    obtain ⟨decoded, hall⟩ := hpairs.2 fun pair hmem => (hpair pair).2 (h pair hmem)
    exact ⟨_, decoded, parseGetparam_eq_some.2 ⟨decoded, hall.imp fun _ _ hr => hr.1, rfl⟩, rfl, hall⟩

/-- `/?a=%`: the assertion on the length fails. -/
theorem not_accepted_percent : parseGetparam .new [47, 63, 97, 61, 37] = none := by
  refine Option.eq_none_iff_forall_ne_some.2 fun conn' h => ?_
  obtain ⟨decoded, hread, -⟩ := parseGetparam_eq_some.1 h
  have hpairs : pairsOf [47, 63, 97, 61, 37] = [([97], [37])] := by decide +kernel
  rw [hpairs] at hread
  cases hread with
  | cons hpair _ =>
    have hvalue := hpair.2
    rw [urlDecode_short (by simp)] at hvalue
    cases hvalue

/-- `%G0` is decoded, to the byte 0. -/
example : urlDecode [37, 71, 48] = some [0] := by decide +kernel

end Learncc.GateServer
