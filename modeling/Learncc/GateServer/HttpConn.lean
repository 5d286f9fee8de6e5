/-
The query string of a GET request (src/gateserver/http_conn.cc): `url_encode`,
`url_decode` and `http_conn::parse_getparam`. Strings are lists of bytes, and
where an assertion fails there is no answer.

A string that was encoded holds no separator (`mem_urlEncode`) and is decoded
to what it was (`urlDecode_urlEncode`), so a query made of pairs is taken apart
at the pairs (`parseGetparam_pairs`).
-/
import Mathlib.Data.List.Basic
import Mathlib.Logic.Function.Basic

namespace Learncc.GateServer

abbrev Bytes : Type := List UInt8

def toHex (x : UInt8) : UInt8 := if 9 < x then x + 55 else x + 48

def fromHex (x : UInt8) : Option UInt8 :=
  if 65 ≤ x ∧ x ≤ 90 then some (x - 65 + 10)
  else if 97 ≤ x ∧ x ≤ 122 then some (x - 97 + 10)
  else if 48 ≤ x ∧ x ≤ 57 then some (x - 48)
  else none

/-- `isalnum` in the C locale. -/
def isalnum (c : UInt8) : Bool := 48 ≤ c ∧ c ≤ 57 ∨ 65 ≤ c ∧ c ≤ 90 ∨ 97 ≤ c ∧ c ≤ 122

/-- What `url_encode` appends for one byte: letters, digits and `-_.~` as they
are, `+` for a space, and `%XX` for the others. -/
def encodeByte (c : UInt8) : Bytes :=
  if isalnum c ∨ c = 45 ∨ c = 95 ∨ c = 46 ∨ c = 126 then [c]
  else if c = 32 then [43]
  else [37, toHex (c >>> 4), toHex (c &&& 0x0F)]

def urlEncode (str : Bytes) : Bytes := str.flatMap encodeByte

def urlDecode : Bytes → Option Bytes
  | [] => some []
  | c :: rest =>
    if c = 43 then (urlDecode rest).map (32 :: ·)
    else if c = 37 then
      match rest with
      | h :: l :: rest =>
        (fromHex h).bind fun high =>
          (fromHex l).bind fun low => (urlDecode rest).map ((high * 16 + low) :: ·)
      | _ => none
    else (urlDecode rest).map (c :: ·)

/-- The members `parse_getparam` sets. -/
structure HttpConn where
  getUrl : Bytes
  getParams : Bytes → Option Bytes

/-- `std::string::find` of a byte. -/
def find (c : UInt8) (str : Bytes) : Option ℕ := str.findIdx? (· = c)

/-- What is done with one pair, and with what comes after the last `&`. -/
def setParam (params : Bytes → Option Bytes) (pair : Bytes) : Option (Bytes → Option Bytes) :=
  match find 61 pair with
  | none => some params
  | some eqPos =>
    (urlDecode (pair.take eqPos)).bind fun key =>
      (urlDecode (pair.drop (eqPos + 1))).map fun value => Function.update params key (some value)

theorem find_lt {c : UInt8} {str : Bytes} {pos : ℕ} (h : find c str = some pos) : pos < str.length :=
  (List.findIdx?_eq_some_iff_findIdx_eq.1 h).1

/-- The loop over the pairs before the last `&`: the parameters, and the rest of
the query. -/
def paramLoop (params : Bytes → Option Bytes) (query : Bytes) : Option ((Bytes → Option Bytes) × Bytes) :=
  match h : find 38 query with
  | none => some (params, query)
  | some pos => (setParam params (query.take pos)).bind fun params => paramLoop params (query.drop (pos + 1))
termination_by query.length
decreasing_by
  have hpos := find_lt h
  rw [List.length_drop]
  omega

def parseGetparam (conn : HttpConn) (uri : Bytes) : Option HttpConn :=
  match find 63 uri with
  | none => some { conn with getUrl := uri }
  | some queryPos =>
    (paramLoop conn.getParams (uri.drop (queryPos + 1))).bind fun r =>
      (if r.2 ≠ [] then setParam r.1 r.2 else some r.1).map fun getParams =>
        { getUrl := uri.take queryPos, getParams }

/-- A new connection. `parse_getparam` is called once for each. -/
def HttpConn.new : HttpConn := { getUrl := [], getParams := fun _ => none }

/-! ## One byte -/

/-- A fact about every byte, from its 256 cases. -/
theorem byte_forall {P : UInt8 → Prop} (h : ∀ n : Fin 256, P (UInt8.ofNat n)) (c : UInt8) : P c := by
  have hc := h ⟨c.toNat, c.toNat_lt⟩
  rwa [UInt8.ofNat_toNat] at hc

theorem fromHex_high (c : UInt8) : fromHex (toHex (c >>> 4)) = some (c >>> 4) :=
  byte_forall (P := fun c => fromHex (toHex (c >>> 4)) = some (c >>> 4)) (by decide +kernel) c

theorem fromHex_low (c : UInt8) : fromHex (toHex (c &&& 0x0F)) = some (c &&& 0x0F) :=
  byte_forall (P := fun c => fromHex (toHex (c &&& 0x0F)) = some (c &&& 0x0F)) (by decide +kernel) c

theorem high_low (c : UInt8) : (c >>> 4) * 16 + (c &&& 0x0F) = c :=
  byte_forall (P := fun c => (c >>> 4) * 16 + (c &&& 0x0F) = c) (by decide +kernel) c

/-- No separator is written. -/
theorem mem_encodeByte (c : UInt8) : ∀ x ∈ encodeByte c, x ≠ 38 ∧ x ≠ 61 :=
  byte_forall (P := fun c => ∀ x ∈ encodeByte c, x ≠ 38 ∧ x ≠ 61) (by decide +kernel) c

/-- What is written as it is, is read as it is. -/
theorem plain_ne {c : UInt8} (h : isalnum c = true ∨ c = 45 ∨ c = 95 ∨ c = 46 ∨ c = 126) :
    c ≠ 43 ∧ c ≠ 37 :=
  byte_forall (P := fun c => (isalnum c = true ∨ c = 45 ∨ c = 95 ∨ c = 46 ∨ c = 126) → c ≠ 43 ∧ c ≠ 37)
    (by decide +kernel) c h

theorem urlDecode_encodeByte (c : UInt8) (rest : Bytes) :
    urlDecode (encodeByte c ++ rest) = (urlDecode rest).map (c :: ·) := by
  unfold encodeByte
  split
  · rename_i hplain
    obtain ⟨hplus, hpercent⟩ := plain_ne hplain
    rw [List.singleton_append, urlDecode.eq_def]
    dsimp only
    rw [if_neg hplus, if_neg hpercent]
  · split
    · rename_i hspace
      rw [List.singleton_append, urlDecode.eq_def, hspace]
      dsimp only
      rw [if_pos rfl]
    · rw [List.cons_append, List.cons_append, List.singleton_append, urlDecode.eq_def]
      dsimp only
      rw [if_neg (by decide), if_pos rfl, fromHex_high, fromHex_low, Option.bind_some, Option.bind_some, high_low]

/-! ## One string -/

theorem mem_urlEncode {x : UInt8} {str : Bytes} (h : x ∈ urlEncode str) : x ≠ 38 ∧ x ≠ 61 := by
  obtain ⟨c, -, hx⟩ := List.mem_flatMap.1 h
  exact mem_encodeByte c x hx

theorem urlDecode_urlEncode (str : Bytes) : urlDecode (urlEncode str) = some str := by
  induction str with
  | nil => rfl
  | cons c str ih =>
    have hcons : urlEncode (c :: str) = encodeByte c ++ urlEncode str := List.flatMap_cons
    rw [hcons, urlDecode_encodeByte, ih, Option.map_some]

/-! ## Separators -/

theorem find_none {c : UInt8} {str : Bytes} (h : c ∉ str) : find c str = none := by
  refine List.findIdx?_eq_none_iff.2 fun x hx => ?_
  exact decide_eq_false fun he => h (he ▸ hx)

/-- The first separator is behind a string that has none. -/
theorem find_append {c : UInt8} {str : Bytes} (h : c ∉ str) (rest : Bytes) :
    find c (str ++ c :: rest) = some str.length := by
  induction str with
  | nil => exact List.findIdx?_cons.trans (if_pos (decide_eq_true rfl))
  | cons x str ih =>
    have hx : x ≠ c := fun he => h (he ▸ List.mem_cons_self)
    have hrest := ih fun hm => h (List.mem_cons_of_mem x hm)
    have hstep : find c (x :: (str ++ c :: rest)) = (find c (str ++ c :: rest)).map (· + 1) :=
      List.findIdx?_cons.trans (if_neg (by simpa using hx))
    rw [List.cons_append, hstep, hrest]
    rfl

theorem take_sep (str : Bytes) (c : UInt8) (rest : Bytes) : (str ++ c :: rest).take str.length = str :=
  List.take_left' rfl

theorem drop_sep (str : Bytes) (c : UInt8) (rest : Bytes) : (str ++ c :: rest).drop (str.length + 1) = rest := by
  rw [← List.drop_drop, List.drop_left' rfl]
  rfl

/-! ## A query of pairs -/

/-- `url_encode(key) + '=' + url_encode(value)`. -/
def encodePair (pair : Bytes × Bytes) : Bytes := urlEncode pair.1 ++ 61 :: urlEncode pair.2

/-- The pairs joined with `&`. -/
def encodeQuery (pairs : List (Bytes × Bytes)) : Bytes := [38].intercalate (pairs.map encodePair)

/-- The parameters with the pairs set one after another. -/
def setPairs (params : Bytes → Option Bytes) (pairs : List (Bytes × Bytes)) : Bytes → Option Bytes :=
  pairs.foldl (fun params pair => Function.update params pair.1 (some pair.2)) params

/-- The value of the last occurrence of a key. -/
def lastValue (pairs : List (Bytes × Bytes)) (key : Bytes) : Option Bytes :=
  (pairs.reverse.find? fun pair => pair.1 = key).map Prod.snd

theorem amp_not_mem (pair : Bytes × Bytes) : 38 ∉ encodePair pair := by
  intro h
  rcases List.mem_append.1 h with h | h
  · exact (mem_urlEncode h).1 rfl
  · rcases List.mem_cons.1 h with h | h
    · exact absurd h (by decide)
    · exact (mem_urlEncode h).1 rfl

theorem setParam_encodePair (params : Bytes → Option Bytes) (pair : Bytes × Bytes) :
    setParam params (encodePair pair) = some (Function.update params pair.1 (some pair.2)) := by
  have heq : find 61 (encodePair pair) = some (urlEncode pair.1).length :=
    find_append (fun h => (mem_urlEncode h).2 rfl) _
  unfold setParam
  rw [heq]
  dsimp only
  rw [encodePair, take_sep, drop_sep, urlDecode_urlEncode, urlDecode_urlEncode]
  rfl

theorem encodeQuery_cons (pair next : Bytes × Bytes) (pairs : List (Bytes × Bytes)) :
    encodeQuery (pair :: next :: pairs) = encodePair pair ++ 38 :: encodeQuery (next :: pairs) := by
  unfold encodeQuery
  rw [List.map_cons, List.map_cons, List.intercalate_cons_cons]
  simp

/-- The loop leaves the last pair. -/
theorem paramLoop_encodeQuery (params : Bytes → Option Bytes) (pairs : List (Bytes × Bytes))
    (last : Bytes × Bytes) :
    paramLoop params (encodeQuery (pairs ++ [last])) = some (setPairs params pairs, encodePair last) := by
  induction pairs generalizing params with
  | nil =>
    have hquery : encodeQuery ([] ++ [last]) = encodePair last := by simp [encodeQuery]
    rw [hquery, paramLoop]
    split
    · rfl
    · rename_i hpos
      rw [find_none (amp_not_mem last)] at hpos
      cases hpos
  | cons pair pairs ih =>
    have hquery : encodeQuery (pair :: pairs ++ [last]) = encodePair pair ++ 38 :: encodeQuery (pairs ++ [last]) := by
      cases pairs with
      | nil => exact encodeQuery_cons pair last []
      | cons next pairs => exact encodeQuery_cons pair next (pairs ++ [last])
    have hfind := find_append (amp_not_mem pair) (encodeQuery (pairs ++ [last]))
    rw [hquery, paramLoop]
    split
    · rename_i hnone
      rw [hfind] at hnone
      cases hnone
    · rename_i pos hpos
      rw [hfind] at hpos
      cases hpos
      rw [take_sep, drop_sep, setParam_encodePair, Option.bind_some, ih]
      rfl

theorem encodePair_ne_nil (pair : Bytes × Bytes) : encodePair pair ≠ [] := fun h => by
  cases (List.append_eq_nil_iff.1 h).2

theorem setPairs_eq (params : Bytes → Option Bytes) (pairs : List (Bytes × Bytes)) (key : Bytes) :
    setPairs params pairs key = (lastValue pairs key).or (params key) := by
  unfold setPairs lastValue
  rw [List.foldl_eq_foldr_reverse]
  induction pairs.reverse with
  | nil => rfl
  | cons pair rest ih =>
    rw [List.foldr_cons]
    by_cases hk : key = pair.1
    · subst hk
      rw [Function.update_self, List.find?_cons_of_pos (by simp)]
      rfl
    · rw [Function.update_of_ne hk, List.find?_cons_of_neg (by simpa using fun he => hk he.symm)]
      exact ih

/-- A query made of pairs, on a connection that may have parameters. -/
theorem parseGetparam_pairs (conn : HttpConn) {path : Bytes} (hpath : 63 ∉ path) (pairs : List (Bytes × Bytes)) :
    parseGetparam conn (path ++ 63 :: encodeQuery pairs) =
      some { getUrl := path, getParams := setPairs conn.getParams pairs } := by
  unfold parseGetparam
  rw [find_append hpath]
  dsimp only
  rw [take_sep, drop_sep]
  rcases List.eq_nil_or_concat pairs with rfl | ⟨pairs, last, rfl⟩
  · rw [show encodeQuery [] = [] from rfl, paramLoop]
    rfl
  · rw [List.concat_eq_append, paramLoop_encodeQuery, Option.bind_some]
    dsimp only
    rw [if_pos (encodePair_ne_nil last), setParam_encodePair, Option.map_some, setPairs, setPairs, List.foldl_append]
    rfl

/-- **The query string round trip.** On a new connection, a path without `?` and
a query of encoded pairs give the path and, for each key, its last value; and no
assertion fails. -/
theorem parseGetparam_roundtrip {path : Bytes} (hpath : 63 ∉ path) (pairs : List (Bytes × Bytes)) :
    parseGetparam .new (path ++ 63 :: encodeQuery pairs) = some { getUrl := path, getParams := lastValue pairs } ∧
      ∀ str, urlDecode (urlEncode str) = some str := by
  refine ⟨?_, urlDecode_urlEncode⟩
  rw [parseGetparam_pairs .new hpath pairs]
  congr 2
  funext key
  rw [setPairs_eq]
  exact Option.or_none

/-- `/get?a%26=+&=`. -/
theorem parseGetparam_roundtrip_get :
    63 ∉ ([47, 103] : Bytes) ∧
      parseGetparam .new ([47, 103] ++ 63 :: encodeQuery [([97, 38], [32]), ([], [])]) =
        some { getUrl := [47, 103], getParams := lastValue [([97, 38], [32]), ([], [])] } :=
  ⟨by decide, (parseGetparam_roundtrip (by decide) _).1⟩

end Learncc.GateServer
