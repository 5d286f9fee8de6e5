/-
`ts_hash_tbl` (inc/public/ts_hash_tbl.h): a vector of buckets, each a list of
entries with a mutex of its own. `find`, `insert` and `remove` do their work
under the mutex of one bucket; `get_map` takes the mutexes of all, one after the
other, copies the buckets and releases the mutexes.

`run_linearizable`: the table is one map on which the calls take effect one at a
time.
-/
import Learncc.Lib.Linearize
import Mathlib.Data.Finmap

namespace Learncc.TsHashTbl

variable {κ ν : Type}

/-- The index of `get_bucket`. -/
def bucketIndex (bucketNum : ℕ) (hasher : κ → ℕ) (key : κ) : ℕ := hasher key % bucketNum

theorem bucketIndex_lt {bucketNum : ℕ} {hasher : κ → ℕ} (hn : 0 < bucketNum) (key : κ) :
    bucketIndex bucketNum hasher key < bucketNum :=
  Nat.mod_lt _ hn

variable [DecidableEq κ]

/-! ## bucket_t -/

/-- `data_list`, a list of `std::pair<k, v>`. -/
abbrev DataList (κ ν : Type) := List (Σ _ : κ, ν)

def valueFor (list : DataList κ ν) (key : κ) (defaultValue : ν) : ν := (list.dlookup key).getD defaultValue

/-- Updates the entry of the key, or adds one at the end. -/
def add (list : DataList κ ν) (key : κ) (value : ν) : DataList κ ν :=
  if key ∈ list.keys then list.kreplace key value else list ++ [⟨key, value⟩]

def remove (list : DataList κ ν) (key : κ) : DataList κ ν := list.kerase key

theorem dlookup_kreplace {list : DataList κ ν} {key : κ} (h : key ∈ list.keys) (value : ν) (x : κ) :
    (list.kreplace key value).dlookup x = if x = key then some value else list.dlookup x := by
  induction list with
  | nil => cases h
  | cons e list ih =>
    obtain ⟨y, w⟩ := e
    by_cases hy : key = y
    · subst hy
      have hfirst : List.kreplace key value (⟨key, w⟩ :: list) = ⟨key, value⟩ :: list :=
        List.lookmap_cons_some _ _ (dif_pos rfl)
      rw [hfirst]
      by_cases hx : x = key
      · rw [hx, List.dlookup_cons_eq, if_pos rfl]
      · rw [List.dlookup_cons_ne _ _ hx, if_neg hx, List.dlookup_cons_ne _ _ hx]
    · have hrest : List.kreplace key value (⟨y, w⟩ :: list) = ⟨y, w⟩ :: List.kreplace key value list :=
        List.lookmap_cons_none _ _ (dif_neg hy)
      have hmem : key ∈ list.keys := by
        rw [List.keys_cons] at h
        exact (List.mem_cons.1 h).resolve_left hy
      rw [hrest]
      by_cases hx : x = y
      · subst hx
        rw [List.dlookup_cons_eq, List.dlookup_cons_eq, if_neg (Ne.symm hy)]
      · rw [List.dlookup_cons_ne _ _ hx, List.dlookup_cons_ne _ _ hx, ih hmem]

section

variable {list : DataList κ ν} {key x : κ} {value : ν}

theorem dlookup_add : (add list key value).dlookup x = if x = key then some value else list.dlookup x := by
  unfold add
  split
  · rename_i hmem
    exact dlookup_kreplace hmem value x
  · rename_i hnot
    rw [List.dlookup_append]
    by_cases hx : x = key
    · subst hx
      rw [if_pos rfl, List.dlookup_eq_none.2 hnot, List.dlookup_cons_eq, Option.none_or]
    · rw [if_neg hx, List.dlookup_cons_ne _ _ hx, List.dlookup_nil, Option.or_none]

theorem nodupKeys_add (h : list.NodupKeys) : (add list key value).NodupKeys := by
  unfold add
  split
  · exact (List.kreplace_nodupKeys key value).2 h
  · rename_i hnot
    have hperm : (list ++ [(⟨key, value⟩ : Σ _ : κ, ν)]).Perm (⟨key, value⟩ :: list) := List.perm_append_singleton ..
    exact (List.perm_nodupKeys hperm).2 (List.nodupKeys_cons.2 ⟨hnot, h⟩)

theorem dlookup_remove (h : list.NodupKeys) :
    (remove list key).dlookup x = if x = key then none else list.dlookup x := by
  unfold remove
  by_cases hx : x = key
  · rw [if_pos hx, hx, List.dlookup_kerase key h]
  · rw [if_neg hx, List.dlookup_kerase_ne hx]

end

/-! ## ts_hash_tbl -/

/-- The buckets, of which the first `bucket_num` are there, and which of their
mutexes a `get_map` holds. -/
structure Table (κ ν : Type) where
  buckets : ℕ → DataList κ ν
  locked : ℕ → Bool

def init : Table κ ν := { buckets := fun _ => [], locked := fun _ => false }

/-- The inner loop of `get_map`; `std::map::insert` leaves an entry there is. -/
def copyBucket (res : Finmap fun _ : κ => ν) (list : DataList κ ν) : Finmap fun _ : κ => ν :=
  list.foldl (fun res e => if e.1 ∈ res then res else res.insert e.1 e.2) res

inductive Op (κ ν : Type)
  | find (key : κ) (defaultValue : ν)
  | insert (key : κ) (value : ν)
  | remove (key : κ)
  | getMap

inductive Answer (κ ν : Type)
  | value (x : ν)
  | done
  | map (res : Finmap fun _ : κ => ν)

/-- Where a call is: before its first access, at bucket `i` of one of the loops
of `get_map`, or back. -/
inductive Pc (κ ν : Type)
  | start
  | lock (i : ℕ)
  | copy (i : ℕ) (res : Finmap fun _ : κ => ν)
  | unlock (i : ℕ) (res : Finmap fun _ : κ => ν)
  | returned (answer : Answer κ ν)

structure Call (κ ν : Type) where
  op : Op κ ν
  pc : Pc κ ν

def setBucket (table : Table κ ν) (i : ℕ) (list : DataList κ ν) : Table κ ν :=
  { table with buckets := Function.update table.buckets i list }

def setLocked (table : Table κ ν) (i : ℕ) (b : Bool) : Table κ ν :=
  { table with locked := Function.update table.locked i b }

/-- The work of `find`, `insert` and `remove`, under the mutex of bucket `i`. -/
def onBucket (table : Table κ ν) (i : ℕ) : Op κ ν → Option (Answer κ ν × Table κ ν)
  | .find key defaultValue => some (.value (valueFor (table.buckets i) key defaultValue), table)
  | .insert key value => some (.done, setBucket table i (add (table.buckets i) key value))
  | .remove key => some (.done, setBucket table i (remove (table.buckets i) key))
  | .getMap => none

/-- The bucket an operation works on; `get_map` works on all. -/
def keyBucket (bucketNum : ℕ) (hasher : κ → ℕ) : Op κ ν → Option ℕ
  | .find key _ | .insert key _ | .remove key => some (bucketIndex bucketNum hasher key)
  | .getMap => none

/-- The next move of a call; a mutex that a `get_map` holds is waited for. -/
def move (bucketNum : ℕ) (hasher : κ → ℕ) (c : Call κ ν) (_ : Unit) (table : Table κ ν) :
    Option (Call κ ν × Table κ ν) :=
  match c.pc with
  | .start =>
    match keyBucket bucketNum hasher c.op with
    | none => some (⟨c.op, .lock 0⟩, table)
    | some i =>
      if table.locked i then none
      else (onBucket table i c.op).map fun r => (⟨c.op, .returned r.1⟩, r.2)
  | .lock i =>
    if i < bucketNum then
      if table.locked i then none else some (⟨c.op, .lock (i + 1)⟩, setLocked table i true)
    else some (⟨c.op, .copy 0 ∅⟩, table)
  | .copy i res =>
    if i < bucketNum then some (⟨c.op, .copy (i + 1) (copyBucket res (table.buckets i))⟩, table)
    else some (⟨c.op, .unlock 0 res⟩, table)
  | .unlock i res =>
    if i < bucketNum then some (⟨c.op, .unlock (i + 1) res⟩, setLocked table i false)
    else some (⟨c.op, .returned (.map res)⟩, table)
  | .returned _ => none

def program (bucketNum : ℕ) (hasher : κ → ℕ) : Calls.Program (Table κ ν) (Call κ ν) (Op κ ν) Unit :=
  { enter := fun op => ⟨op, .start⟩, move := move bucketNum hasher }

/-! ## The map -/

/-- What the operations are on a map. -/
inductive Spec : Op κ ν → (Finmap fun _ : κ => ν) → Answer κ ν → (Finmap fun _ : κ => ν) → Prop
  | find (key : κ) (defaultValue : ν) (m : Finmap fun _ : κ => ν) :
      Spec (.find key defaultValue) m (.value ((m.lookup key).getD defaultValue)) m
  | insert (key : κ) (value : ν) (m : Finmap fun _ : κ => ν) : Spec (.insert key value) m .done (m.insert key value)
  | remove (key : κ) (m : Finmap fun _ : κ => ν) : Spec (.remove key) m .done (m.erase key)
  | getMap (m : Finmap fun _ : κ => ν) : Spec .getMap m (.map m) m

/-- A `get_map` takes effect when it has copied the last bucket. -/
def Pc.effect : Pc κ ν → Option (Answer κ ν)
  | .unlock _ res => some (.map res)
  | .returned answer => some answer
  | .start | .lock _ | .copy _ _ => none

def Pc.answer : Pc κ ν → Option (Answer κ ν)
  | .returned answer => some answer
  | .start | .lock _ | .copy _ _ | .unlock _ _ => none

def view : Calls.View (Call κ ν) (Op κ ν) (Answer κ ν) :=
  { op := Call.op, effect := fun c => c.pc.effect, answer := fun c => c.pc.answer }

/-! ## What holds throughout -/

/-- 1 if a call at `pc` holds the mutex of bucket `j`. -/
def Pc.holds (bucketNum j : ℕ) : Pc κ ν → ℕ
  | .start | .returned _ => 0
  | .lock i => if j < i then 1 else 0
  | .copy _ _ => if j < bucketNum then 1 else 0
  | .unlock i _ => if i ≤ j ∧ j < bucketNum then 1 else 0

/-- The copy of the first `i` buckets. -/
def Copied (bucketNum : ℕ) (hasher : κ → ℕ) (table : Table κ ν) (i : ℕ) (res : Finmap fun _ : κ => ν) : Prop :=
  ∀ key, res.lookup key =
    if bucketIndex bucketNum hasher key < i then (table.buckets (bucketIndex bucketNum hasher key)).dlookup key
    else none

/-- What a `get_map` knows: how far it is, and what its copy is of. -/
def Call.Knows (bucketNum : ℕ) (hasher : κ → ℕ) (table : Table κ ν) (c : Call κ ν) : Prop :=
  match c.pc with
  | .start | .returned _ => True
  | .lock i | .unlock i _ => c.op = .getMap ∧ i ≤ bucketNum
  | .copy i res => c.op = .getMap ∧ i ≤ bucketNum ∧ Copied bucketNum hasher table i res

/-- The table stands for the map `m`: each key has at most one entry, in the bucket
it hashes to, and that is its entry in the map. -/
structure Represents (bucketNum : ℕ) (hasher : κ → ℕ) (table : Table κ ν) (m : Finmap fun _ : κ => ν) : Prop where
  nodup : ∀ j, (table.buckets j).NodupKeys
  home : ∀ {j key}, key ∈ (table.buckets j).keys → bucketIndex bucketNum hasher key = j
  lookup : ∀ key, m.lookup key = (table.buckets (bucketIndex bucketNum hasher key)).dlookup key

structure Inv (bucketNum : ℕ) (hasher : κ → ℕ) (table : Table κ ν) (calls : List (Call κ ν))
    (m : Finmap fun _ : κ => ν) : Prop where
  represents : Represents bucketNum hasher table m
  locks : ∀ j, Calls.total (fun c => c.pc.holds bucketNum j) calls = if table.locked j then 1 else 0
  knows : ∀ c ∈ calls, c.Knows bucketNum hasher table

section

variable {bucketNum : ℕ} {hasher : κ → ℕ} {table table' : Table κ ν} {calls : List (Call κ ν)}
  {m : Finmap fun _ : κ => ν} {i j : ℕ} {c : Call κ ν} {pc' : Pc κ ν}

theorem init_represents : Represents bucketNum hasher (init : Table κ ν) ∅ :=
  ⟨fun _ => List.nodupKeys_nil, nofun, fun _ => Finmap.lookup_empty _⟩

/-- One bucket is changed for one key. -/
theorem Represents.setBucket (h : Represents bucketNum hasher table m) {key : κ} {list : DataList κ ν}
    {m' : Finmap fun _ : κ => ν} (entry : Option ν) (hnodup : list.NodupKeys)
    (hlist : ∀ x, list.dlookup x =
      if x = key then entry else (table.buckets (bucketIndex bucketNum hasher key)).dlookup x)
    (hmap : ∀ x, m'.lookup x = if x = key then entry else m.lookup x) :
    Represents bucketNum hasher (TsHashTbl.setBucket table (bucketIndex bucketNum hasher key) list) m' := by
  refine ⟨fun j => ?_, fun {j x} hx => ?_, fun x => ?_⟩
  · by_cases hj : j = bucketIndex bucketNum hasher key
    · simp only [TsHashTbl.setBucket, hj, Function.update_self]
      exact hnodup
    · simp only [TsHashTbl.setBucket, Function.update_of_ne hj]
      exact h.nodup j
  · by_cases hj : j = bucketIndex bucketNum hasher key
    · simp only [TsHashTbl.setBucket, hj, Function.update_self] at hx
      by_cases hkey : x = key
      · rw [hkey, hj]
      · rw [← List.dlookup_isSome, hlist, if_neg hkey, List.dlookup_isSome] at hx
        rw [hj]
        exact h.home hx
    · simp only [TsHashTbl.setBucket, Function.update_of_ne hj] at hx
      exact h.home hx
  · rw [hmap, h.lookup]
    by_cases hx : bucketIndex bucketNum hasher x = bucketIndex bucketNum hasher key
    · simp only [TsHashTbl.setBucket, hx, Function.update_self, hlist]
    · have hkey : x ≠ key := fun he => hx (by rw [he])
      simp only [TsHashTbl.setBucket, Function.update_of_ne hx, if_neg hkey]

theorem lookup_copyBucket {list : DataList κ ν} (hnodup : list.NodupKeys) :
    ∀ {res : Finmap fun _ : κ => ν}, (∀ x ∈ list.keys, res.lookup x = none) → ∀ x,
      (copyBucket res list).lookup x = (res.lookup x).or (list.dlookup x) := by
  unfold copyBucket
  induction list with
  | nil => simp
  | cons e list ih =>
    intro res hres x
    obtain ⟨y, w⟩ := e
    obtain ⟨hy, hnodup⟩ := List.nodupKeys_cons.1 hnodup
    have hnone : res.lookup y = none := hres y (by simp)
    have hstep : ∀ z, (res.insert y w).lookup z = if z = y then some w else res.lookup z := by
      intro z
      by_cases hz : z = y
      · rw [hz, if_pos rfl, Finmap.lookup_insert]
      · rw [if_neg hz, Finmap.lookup_insert_of_ne _ hz]
    have hnext : ∀ z ∈ list.keys, (res.insert y w).lookup z = none := by
      intro z hz
      have hzy : z ≠ y := fun he => hy (he ▸ hz)
      rw [hstep, if_neg hzy]
      exact hres z (by rw [List.keys_cons]; exact List.mem_cons_of_mem _ hz)
    rw [List.foldl_cons, if_neg (Finmap.lookup_eq_none.1 hnone), ih hnodup hnext, hstep]
    by_cases hx : x = y
    · subst hx
      rw [if_pos rfl, hnone, List.dlookup_cons_eq]
      simp
    · rw [if_neg hx, List.dlookup_cons_ne _ _ hx]

/-! ## One move -/

/-- A call that holds the mutex of a bucket is why it is locked. -/
theorem Inv.locked_of_holds (h : Inv bucketNum hasher table calls m) (hc : c ∈ calls)
    (hj : 0 < c.pc.holds bucketNum j) : table.locked j = true := by
  obtain ⟨i, hi⟩ := List.mem_iff_getElem?.1 hc
  have hle := Calls.le_total (f := fun c : Call κ ν => c.pc.holds bucketNum j) hi
  have hlocks := h.locks j
  by_contra hno
  rw [if_neg hno] at hlocks
  simp only [hlocks] at hle
  omega

/-- While a bucket is free no `get_map` is copying. -/
theorem Inv.not_copying (h : Inv bucketNum hasher table calls m) (hj : j < bucketNum) (hfree : table.locked j = false)
    (hc : c ∈ calls) {res : Finmap fun _ : κ => ν} : c.pc ≠ .copy i res := by
  intro hpc
  have := h.locked_of_holds (j := j) hc (by rw [hpc]; simp [Pc.holds, hj])
  rw [hfree] at this
  cases this

theorem Call.Knows.congr (h : c.Knows bucketNum hasher table)
    (hcopy : ∀ i res, c.pc = .copy i res → table'.buckets = table.buckets) : c.Knows bucketNum hasher table' := by
  unfold Call.Knows at h ⊢
  cases hpc : c.pc with
  | start | lock i | unlock i res | returned a =>
    rw [hpc] at h
    exact h
  | copy i res =>
    rw [hpc] at h
    dsimp only [Copied] at h ⊢
    rw [hcopy i res hpc]
    exact h

/-- The call moves to `pc'`; the buckets stay as they are. -/
theorem Inv.goto (h : Inv bucketNum hasher table calls m) (hi : calls[i]? = some c)
    (hbuckets : table'.buckets = table.buckets)
    (hlocks : ∀ j, (if table'.locked j then 1 else 0) + c.pc.holds bucketNum j =
      (if table.locked j then 1 else 0) + pc'.holds bucketNum j)
    (hknows : (⟨c.op, pc'⟩ : Call κ ν).Knows bucketNum hasher table) :
    Inv bucketNum hasher table' (calls.set i ⟨c.op, pc'⟩) m := by
  refine ⟨⟨?_, ?_, ?_⟩, fun j => ?_, Calls.forall_mem_set (fun d hd => ?_) ?_⟩
  · rw [hbuckets]
    exact h.represents.nodup
  · rw [hbuckets]
    exact h.represents.home
  · rw [hbuckets]
    exact h.represents.lookup
  · have hset : Calls.total (fun c => c.pc.holds bucketNum j) (calls.set i ⟨c.op, pc'⟩) + c.pc.holds bucketNum j =
        Calls.total (fun c => c.pc.holds bucketNum j) calls + pc'.holds bucketNum j := Calls.total_set hi
    have hbefore := h.locks j
    have hj := hlocks j
    omega
  · exact (h.knows d hd).congr fun _ _ _ => hbuckets
  · exact hknows.congr fun _ _ _ => hbuckets

/-- The call does its work on one bucket, which is free, and returns. -/
theorem Inv.work (h : Inv bucketNum hasher table calls m) (hi : calls[i]? = some c) (hpc : c.pc = .start)
    (hj : j < bucketNum) (hfree : table.locked j = false) {list : DataList κ ν} {m' : Finmap fun _ : κ => ν}
    (hrep : Represents bucketNum hasher (TsHashTbl.setBucket table j list) m') (answer : Answer κ ν) :
    Inv bucketNum hasher (TsHashTbl.setBucket table j list) (calls.set i ⟨c.op, .returned answer⟩) m' := by
  refine ⟨hrep, fun k => ?_, Calls.forall_mem_set (fun d hd => ?_) trivial⟩
  · have hset : Calls.total (fun c => c.pc.holds bucketNum k) (calls.set i ⟨c.op, .returned answer⟩) =
        Calls.total (fun c => c.pc.holds bucketNum k) calls := Calls.total_set_same hi (by rw [hpc]; rfl)
    rw [hset]
    exact h.locks k
  · exact (h.knows d hd).congr fun i res hcopy => absurd hcopy (h.not_copying hj hfree hd)

/-- The copy with one bucket more. -/
theorem Represents.copied (h : Represents bucketNum hasher table m) {res : Finmap fun _ : κ => ν}
    (hres : Copied bucketNum hasher table i res) :
    Copied bucketNum hasher table (i + 1) (copyBucket res (table.buckets i)) := by
  intro key
  have hnew : ∀ x ∈ (table.buckets i).keys, res.lookup x = none := by
    intro x hx
    rw [hres x, h.home hx, if_neg (Nat.lt_irrefl i)]
  rw [lookup_copyBucket (h.nodup i) hnew, hres key]
  by_cases hkey : bucketIndex bucketNum hasher key = i
  · rw [hkey, if_neg (Nat.lt_irrefl i), if_pos (Nat.lt_succ_self i), Option.none_or]
  · have hnone : (table.buckets i).dlookup key = none := List.dlookup_eq_none.2 fun hx => hkey (h.home hx)
    have hiff : bucketIndex bucketNum hasher key < i ↔ bucketIndex bucketNum hasher key < i + 1 := by omega
    rw [hnone, Option.or_none]
    simp only [hiff]

theorem Represents.copied_all (h : Represents bucketNum hasher table m) (hn : 0 < bucketNum)
    {res : Finmap fun _ : κ => ν} (hres : Copied bucketNum hasher table bucketNum res) : res = m :=
  Finmap.ext_lookup fun key => by rw [hres key, if_pos (bucketIndex_lt hn key), h.lookup key]

/-- What a move does to the map. -/
def Takes (bucketNum : ℕ) (hasher : κ → ℕ) (table' : Table κ ν) (calls : List (Call κ ν)) (i : ℕ)
    (m : Finmap fun _ : κ => ν) (c c' : Call κ ν) : Prop :=
  c'.op = c.op ∧
    (c'.pc.effect = c.pc.effect ∧ Inv bucketNum hasher table' (calls.set i c') m ∨
      c.pc.effect = none ∧ ∃ answer m', c'.pc.effect = some answer ∧ Spec c.op m answer m' ∧
        Inv bucketNum hasher table' (calls.set i c') m')

/-- `find`, `insert` and `remove` take effect at once. -/
theorem Inv.onBucket (h : Inv bucketNum hasher table calls m) (hn : 0 < bucketNum) (hi : calls[i]? = some c)
    (hpc : c.pc = .start) (hkey : keyBucket bucketNum hasher c.op = some j) (hfree : table.locked j = false)
    {answer : Answer κ ν} (hwork : TsHashTbl.onBucket table j c.op = some (answer, table')) :
    Takes bucketNum hasher table' calls i m c ⟨c.op, .returned answer⟩ := by
  refine ⟨rfl, .inr ⟨by rw [hpc]; rfl, answer, ?_⟩⟩
  cases hop : c.op with
  | find key defaultValue =>
    rw [hop] at hwork hkey
    cases hwork
    cases hkey
    refine ⟨m, rfl, ?_, ?_⟩
    · rw [valueFor, ← h.represents.lookup key]
      exact .find key defaultValue m
    · rw [← hop]
      exact h.goto hi rfl (fun j => by rw [hpc]; rfl) trivial
  | insert key value =>
    rw [hop] at hwork hkey
    cases hwork
    cases hkey
    refine ⟨m.insert key value, rfl, .insert key value m, ?_⟩
    rw [← hop]
    refine h.work hi hpc (bucketIndex_lt hn key) hfree (h.represents.setBucket (some value) ?_ ?_ ?_) .done
    · exact nodupKeys_add (h.represents.nodup _)
    · exact fun x => dlookup_add
    · intro x
      by_cases hx : x = key
      · rw [hx, if_pos rfl, Finmap.lookup_insert]
      · rw [if_neg hx, Finmap.lookup_insert_of_ne _ hx]
  | remove key =>
    rw [hop] at hwork hkey
    cases hwork
    cases hkey
    refine ⟨m.erase key, rfl, .remove key m, ?_⟩
    rw [← hop]
    refine h.work hi hpc (bucketIndex_lt hn key) hfree (h.represents.setBucket none ?_ ?_ ?_) .done
    · exact (h.represents.nodup _).kerase key
    · exact fun x => dlookup_remove (h.represents.nodup _)
    · intro x
      by_cases hx : x = key
      · rw [hx, if_pos rfl, Finmap.lookup_erase]
      · rw [if_neg hx, Finmap.lookup_erase_ne hx]
  | getMap =>
    rw [hop] at hkey
    cases hkey

theorem move_takes (h : Inv bucketNum hasher table calls m) (hn : 0 < bucketNum) (hi : calls[i]? = some c)
    {c' : Call κ ν} (hm : move bucketNum hasher c () table = some (c', table')) :
    Takes bucketNum hasher table' calls i m c c' := by
  have hmem := List.mem_of_getElem? hi
  have hknows := h.knows c hmem
  unfold move at hm
  unfold Call.Knows at hknows
  cases hpc : c.pc with
  | start =>
    simp only [hpc] at hm
    cases hkey : keyBucket bucketNum hasher c.op with
    | none =>
      simp only [hkey, Option.some.injEq, Prod.mk.injEq] at hm
      obtain ⟨rfl, rfl⟩ := hm
      have hop : c.op = .getMap := by
        cases hop : c.op <;> rw [hop] at hkey <;> first | rfl | cases hkey
      refine ⟨rfl, .inl ⟨by rw [hpc]; rfl, h.goto hi rfl (fun j => ?_) ⟨hop, Nat.zero_le _⟩⟩⟩
      rw [hpc]
      simp [Pc.holds]
    | some j =>
      simp only [hkey] at hm
      split at hm
      · cases hm
      · rename_i hfree
        obtain ⟨r, hr, he⟩ := Option.map_eq_some_iff.1 hm
        cases he
        exact h.onBucket hn hi hpc hkey (Bool.eq_false_iff.2 hfree) hr
  | lock k =>
    simp only [hpc] at hm hknows
    obtain ⟨hop, hk⟩ := hknows
    split at hm
    · rename_i hlt
      split at hm
      · cases hm
      · rename_i hfree
        cases hm
        refine ⟨rfl, .inl ⟨by rw [hpc]; rfl, h.goto hi rfl (fun j => ?_) ⟨hop, hlt⟩⟩⟩
        rw [hpc]
        simp only [Pc.holds, setLocked, Function.update_apply]
        by_cases hj : j = k
        · subst hj
          simp [hfree]
        · have hiff : j < k ↔ j < k + 1 := by omega
          simp only [hj, if_false, hiff]
    · rename_i hge
      cases hm
      have hkn : k = bucketNum := by omega
      refine ⟨rfl, .inl ⟨by rw [hpc]; rfl, h.goto hi rfl (fun j => ?_) ⟨hop, Nat.zero_le _, fun key => ?_⟩⟩⟩
      · rw [hpc, hkn]
        rfl
      · rw [Finmap.lookup_empty, if_neg (Nat.not_lt_zero _)]
  | copy k res =>
    simp only [hpc] at hm hknows
    obtain ⟨hop, hk, hres⟩ := hknows
    split at hm
    · rename_i hlt
      cases hm
      refine ⟨rfl, .inl ⟨by rw [hpc]; rfl, h.goto hi rfl (fun j => ?_) ⟨hop, hlt, h.represents.copied hres⟩⟩⟩
      rw [hpc]
      rfl
    · rename_i hge
      cases hm
      have hkn : k = bucketNum := by omega
      subst hkn
      have hall : res = m := h.represents.copied_all hn hres
      refine ⟨rfl, .inr ⟨by rw [hpc]; rfl, .map res, m, rfl, ?_, h.goto hi rfl (fun j => ?_) ⟨hop, Nat.zero_le _⟩⟩⟩
      · rw [hop, hall]
        exact .getMap m
      · rw [hpc]
        simp [Pc.holds]
  | unlock k res =>
    simp only [hpc] at hm hknows
    obtain ⟨hop, hk⟩ := hknows
    split at hm
    · rename_i hlt
      cases hm
      have hlocked : table.locked k = true := h.locked_of_holds hmem (by rw [hpc]; simp [Pc.holds, hlt])
      refine ⟨rfl, .inl ⟨by rw [hpc]; rfl, h.goto hi rfl (fun j => ?_) ⟨hop, hlt⟩⟩⟩
      rw [hpc]
      simp only [Pc.holds, setLocked, Function.update_apply]
      by_cases hj : j = k
      · subst hj
        simp [hlocked, hlt]
      · have hiff : k ≤ j ↔ k + 1 ≤ j := by omega
        simp only [hj, if_false, hiff]
    · rename_i hge
      cases hm
      refine ⟨rfl, .inl ⟨by rw [hpc]; rfl, h.goto hi rfl (fun j => ?_) trivial⟩⟩
      rw [hpc]
      have hno : ¬ (k ≤ j ∧ j < bucketNum) := by omega
      simp [Pc.holds, hno]
  | returned answer =>
    simp only [hpc] at hm
    cases hm

theorem program_atomic (hn : 0 < bucketNum) :
    Calls.Atomic (program bucketNum hasher) (view (κ := κ) (ν := ν)) Spec (Inv bucketNum hasher) := by
  refine ⟨fun op => ⟨rfl, rfl⟩, fun {c r} hr => ?_, fun {table calls m op} h => ?_, fun {_ _ _ _ _ u _ _} h hi hm => ?_⟩
  · show c.pc.effect = some r
    have hr' : c.pc.answer = some r := hr
    cases hpc : c.pc <;> rw [hpc] at hr' <;> first | exact hr' | cases hr'
  · refine ⟨h.represents, fun j => ?_, fun d hd => ?_⟩
    · rw [Calls.total_concat]
      exact h.locks j
    · rcases List.mem_append.1 hd with hd | hd
      · exact h.knows d hd
      · rw [List.mem_singleton.1 hd]
        trivial
  · exact move_takes h hn hi hm

/-- **A run is one map, used by one call after the other.** At every moment each
bucket has at most one entry for a key, and only keys that hash to it. -/
theorem run_linearizable {events : List (Calls.Event (Op κ ν) Unit)} {t : Calls (Table κ ν) (Call κ ν)}
    (hn : 0 < bucketNum) (ht : Run.run (program bucketNum hasher).step ⟨init, []⟩ events = some t) :
    ∃ log m, Represents bucketNum hasher t.shared m ∧
      Calls.Linearized (program bucketNum hasher) view Spec ⟨init, []⟩ ∅ events t log m := by
  have h₀ : Inv bucketNum hasher (init : Table κ ν) [] ∅ := ⟨init_represents, fun j => rfl, nofun⟩
  obtain ⟨log, m, hinv, hlog⟩ := (program_atomic hn).linearized h₀ ht
  exact ⟨log, m, hinv.represents, hlog⟩

end

/-- `get_map` has locked the bucket of 2 when 3 goes into the other one; 4 has to wait
until it is through. -/
def mapDuringInserts : List (Calls.Event (Op ℕ ℕ) Unit) :=
  [.call (.insert 2 20), .move 0 (), .call .getMap, .move 1 (), .move 1 (), .call (.insert 3 30), .move 2 (),
    .call (.insert 4 40)] ++ List.replicate 7 (.move 1 ()) ++ [.move 3 (), .call (.find 4 0), .move 4 ()]

theorem run_linearizable_mapDuringInserts :
    ∃ t, Run.run (program 2 id).step ⟨init, []⟩ mapDuringInserts = some t ∧
      ∃ log m, Represents 2 id t.shared m ∧
        Calls.Linearized (program 2 id) view Spec ⟨init, []⟩ ∅ mapDuringInserts t log m := by
  have hrun : ((Run.run (program 2 id).step ⟨init, []⟩ mapDuringInserts).map fun t => t.calls.length) = some 5 := by
    decide +kernel
  obtain ⟨t, ht, -⟩ := Option.map_eq_some_iff.1 hrun
  exact ⟨t, ht, run_linearizable (by decide) ht⟩

end Learncc.TsHashTbl
