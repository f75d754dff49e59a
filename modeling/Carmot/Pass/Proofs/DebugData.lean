/-
The debug data the pass writes is read back under the ids its entries
carry.

The argument has three parts. A record survives being written and read
(`DebugData.ofBytes_bytes`). Creating the records gives the k-th entry
of all the vectors the id k + 1 and puts its record at place k
(`createDebugDataForVector_eq`). Reading the concatenation of records
numbers them from 1 on and stops after the last (`readRecords_flatMap`).
What is left is the `int` of the writer, which counts no further than
2^31 - 1 entries.
-/
import Mathlib.Data.List.Basic
import Mathlib.Data.List.GetD
import Carmot.Pass.DebugData

namespace Carmot.Pass

-- ===================================================== a record as bytes

theorem length_unsignedBytes (w : UInt32) : (unsignedBytes w).length = 4 := rfl

/-- The four bytes of a word. -/
theorem unsigned_eq (w : UInt32) :
    UInt32.ofNat (w.toUInt8.toNat + 2 ^ 8 * (w >>> 8).toUInt8.toNat
      + 2 ^ 16 * (w >>> 16).toUInt8.toNat + 2 ^ 24 * (w >>> 24).toUInt8.toNat) = w := by
  apply UInt32.toNat_inj.mp
  have hlt := w.toNat_lt
  have h0 : w.toUInt8.toNat = w.toNat % 2 ^ 8 := UInt32.toNat_toUInt8 w
  have h1 : (w >>> 8).toUInt8.toNat = w.toNat / 2 ^ 8 % 2 ^ 8 := by
    rw [UInt32.toNat_toUInt8, UInt32.toNat_shiftRight, Nat.shiftRight_eq_div_pow]
    rfl
  have h2 : (w >>> 16).toUInt8.toNat = w.toNat / 2 ^ 16 % 2 ^ 8 := by
    rw [UInt32.toNat_toUInt8, UInt32.toNat_shiftRight, Nat.shiftRight_eq_div_pow]
    rfl
  have h3 : (w >>> 24).toUInt8.toNat = w.toNat / 2 ^ 24 % 2 ^ 8 := by
    rw [UInt32.toNat_toUInt8, UInt32.toNat_shiftRight, Nat.shiftRight_eq_div_pow]
    rfl
  rw [h0, h1, h2, h3, UInt32.toNat_ofNat']
  omega

/-- A word that starts `xs.length` bytes into a list is read back. -/
theorem unsignedAt_append (xs : List UInt8) (w : UInt32) (ys : List UInt8) :
    unsignedAt (xs ++ (unsignedBytes w ++ ys)) xs.length = w := by
  unfold unsignedAt
  rw [List.getD_append_right _ _ _ _ (Nat.le_refl _),
    List.getD_append_right _ _ _ _ (Nat.le_add_right _ _),
    List.getD_append_right _ _ _ _ (Nat.le_add_right _ _),
    List.getD_append_right _ _ _ _ (Nat.le_add_right _ _), Nat.sub_self,
    Nat.add_sub_cancel_left, Nat.add_sub_cancel_left, Nat.add_sub_cancel_left]
  exact unsigned_eq w

/-- An array that starts `xs.length` bytes into a list is read back. -/
theorem getD_ofFn_append {n : Nat} (xs : List UInt8) (f : Fin n → UInt8) (ys : List UInt8)
    (i : Fin n) : (xs ++ (List.ofFn f ++ ys)).getD (xs.length + i) 0 = f i := by
  have hi : (i : Nat) < (List.ofFn f).length := by rw [List.length_ofFn]; exact i.isLt
  rw [List.getD_append_right _ _ _ _ (Nat.le_add_right _ _), Nat.add_sub_cancel_left,
    List.getD_append _ _ _ _ hi, List.getD_eq_getElem _ _ hi, List.getElem_ofFn]

theorem DebugData.length_bytes (d : DebugData) : d.bytes.length = DebugData.size := by
  unfold DebugData.bytes DebugData.size
  rw [List.length_append, List.length_append, List.length_append, List.length_ofFn,
    List.length_ofFn, length_unsignedBytes, length_unsignedBytes]
  rfl

/-- Reading the memory of an object gives the object. -/
theorem DebugData.ofBytes_bytes (d : DebugData) : DebugData.ofBytes d.bytes = d := by
  have hpath : ∀ i : Fin stringSize, d.bytes.getD i 0 = d.pathToFile i := by
    intro i
    have h := getD_ofFn_append [] d.pathToFile
      (List.ofFn d.varName ++ (unsignedBytes d.lineNum ++ unsignedBytes d.columnNum)) i
    rw [List.length_nil, Nat.zero_add, List.nil_append] at h
    exact h
  have hname : ∀ i : Fin stringSize, d.bytes.getD (stringSize + i) 0 = d.varName i := by
    intro i
    have h := getD_ofFn_append (List.ofFn d.pathToFile) d.varName
      (unsignedBytes d.lineNum ++ unsignedBytes d.columnNum) i
    rwa [List.length_ofFn] at h
  have hline : unsignedAt d.bytes (stringSize + stringSize) = d.lineNum := by
    have h := unsignedAt_append (List.ofFn d.pathToFile ++ List.ofFn d.varName) d.lineNum
      (unsignedBytes d.columnNum)
    rwa [List.length_append, List.length_ofFn, List.length_ofFn, List.append_assoc] at h
  have hcol : unsignedAt d.bytes (stringSize + stringSize + 4) = d.columnNum := by
    have h := unsignedAt_append
      (List.ofFn d.pathToFile ++ (List.ofFn d.varName ++ unsignedBytes d.lineNum)) d.columnNum []
    rwa [List.append_nil, List.length_append, List.length_append, List.length_ofFn,
      List.length_ofFn, length_unsignedBytes, ← Nat.add_assoc, List.append_assoc,
      List.append_assoc] at h
  cases d with
  | mk path name line col =>
      unfold DebugData.ofBytes
      rw [DebugData.mk.injEq]
      exact ⟨funext hpath, funext hname, hline, hcol⟩

-- ============================================================ the writer

/-- The writer writes every record when its counter can count them. -/
theorem writeRecords_of_le : ∀ (ds : List DebugData) (i : Nat), i + ds.length ≤ intMax →
    writeRecords i ds = some (ds.flatMap DebugData.bytes) := by
  intro ds
  induction ds with
  | nil => intro i _; rfl
  | cons d ds ih =>
      intro i hi
      rw [List.length_cons] at hi
      unfold writeRecords
      rw [if_pos (by omega), ih (i + 1) (by omega), List.flatMap_cons]
      rfl

/-- Past the largest `int` the writer is undefined. -/
theorem writeRecords_of_gt : ∀ (ds : List DebugData) (i : Nat), i ≤ intMax →
    intMax < i + ds.length → writeRecords i ds = none := by
  intro ds
  induction ds with
  | nil => intro i hi hgt; rw [List.length_nil] at hgt; omega
  | cons d ds ih =>
      intro i hi hgt
      rw [List.length_cons] at hgt
      unfold writeRecords
      by_cases hlt : i < intMax
      · rw [if_pos hlt, ih (i + 1) hlt (by omega)]
        rfl
      · rw [if_neg hlt]

-- ============================================================ the reader

theorem readRecords_nil (k : UInt64) (m : UInt64 → Option DebugData) : readRecords [] k m = m := by
  unfold readRecords
  rw [if_pos (by decide)]

/-- One turn of the reader takes one record. -/
theorem readRecords_cons (d : DebugData) (file : List UInt8) (k : UInt64)
    (m : UInt64 → Option DebugData) :
    readRecords (d.bytes ++ file) k m
      = readRecords file (k + 1) (Function.update m k (some d)) := by
  have hlen := d.length_bytes
  rw [readRecords, if_neg (by rw [List.length_append]; omega), List.drop_left' hlen,
    List.take_left' hlen, d.ofBytes_bytes]

/-- The reader numbers the records of a file from its counter on. -/
theorem readRecords_flatMap : ∀ (ds : List DebugData) (i : Nat) (m : UInt64 → Option DebugData),
    i + ds.length < 2 ^ 64 → ∀ k : UInt64,
      readRecords (ds.flatMap DebugData.bytes) (UInt64.ofNat i) m k
        = if i ≤ k.toNat ∧ k.toNat < i + ds.length then ds[k.toNat - i]? else m k := by
  intro ds
  induction ds with
  | nil =>
      intro i m _ k
      rw [List.flatMap_nil, readRecords_nil, List.length_nil, if_neg (by omega)]
  | cons d ds ih =>
      intro i m hi k
      rw [List.length_cons] at hi ⊢
      have hi64 : (UInt64.ofNat i).toNat = i :=
        UInt64.toNat_ofNat_of_lt' (Nat.lt_of_le_of_lt (Nat.le_add_right i _) hi)
      have hnext : UInt64.ofNat i + 1 = UInt64.ofNat (i + 1) := by
        rw [UInt64.ofNat_add]
        rfl
      rw [List.flatMap_cons, readRecords_cons, hnext, ih (i + 1) _ (by omega) k]
      by_cases hk : k = UInt64.ofNat i
      · have hkn : k.toNat = i := by rw [hk, hi64]
        rw [if_neg (by omega), if_pos (by omega), hk, Function.update_self, hi64, Nat.sub_self]
        rfl
      · have hkn : k.toNat ≠ i := fun h => hk (UInt64.toNat_inj.mp (by rw [h, hi64]))
        rw [Function.update_of_ne hk]
        by_cases hin : i + 1 ≤ k.toNat ∧ k.toNat < i + 1 + ds.length
        · have hsub : k.toNat - i = (k.toNat - (i + 1)) + 1 := by omega
          rw [if_pos hin, if_pos (by omega), hsub, List.getElem?_cons_succ]
        · rw [if_neg hin, if_neg (by omega)]

-- ========================================================== the entries

/-- Are the strings of an entry short enough for its record? -/
def Entry.Fits (e : Entry) : Prop :=
  e.pathToFile.length < stringSize ∧ e.varName.length < stringSize

theorem Entry.getDebugData_id (e : Entry) (id : UInt64) :
    ({ e with id := id } : Entry).getDebugData = e.getDebugData := rfl

theorem Entry.isSome_getDebugData {e : Entry} (h : e.Fits) : ∃ d, e.getDebugData = some d := by
  unfold Entry.getDebugData DebugData.new
  rw [if_neg (by have h₁ := h.1; have h₂ := h.2; omega)]
  exact ⟨_, rfl⟩

/-- The heap after the records are made: the k-th entry has the id that
comes k after `base`. -/
def numbered (heap : EntryPtr → Entry) (base : Nat) (entries : List EntryPtr) :
    EntryPtr → Entry := fun p =>
  if p ∈ entries then { heap p with id := UInt64.ofNat (base + entries.idxOf p) + 1 } else heap p

theorem numbered_cons {heap : EntryPtr → Entry} {base : Nat} {p : EntryPtr} {ps : List EntryPtr}
    (hp : p ∉ ps) :
    numbered (Function.update heap p { heap p with id := UInt64.ofNat base + 1 }) (base + 1) ps
      = numbered heap base (p :: ps) := by
  funext q
  unfold numbered
  by_cases hq : q = p
  · subst hq
    rw [if_neg hp, if_pos List.mem_cons_self, Function.update_self, List.idxOf_cons_self,
      Nat.add_zero]
  · by_cases hmem : q ∈ ps
    · rw [if_pos hmem, if_pos (List.mem_cons_of_mem p hmem), Function.update_of_ne hq,
        List.idxOf_cons_ne _ (Ne.symm hq), Nat.succ_eq_add_one, Nat.add_assoc, Nat.add_comm 1]
    · rw [if_neg hmem, if_neg (by rw [List.mem_cons]; exact not_or.mpr ⟨hq, hmem⟩),
        Function.update_of_ne hq]

/-- Making the records of a vector: one for each entry, in order. -/
theorem createDebugDataForVector_eq : ∀ (entries : List EntryPtr) (heap : EntryPtr → Entry)
    (made : List DebugData), entries.Nodup → (∀ p ∈ entries, (heap p).Fits) →
      ∃ ds, createDebugDataForVector heap entries made
          = some (numbered heap made.length entries, made ++ ds)
        ∧ ds.map some = entries.map fun p => (heap p).getDebugData := by
  intro entries
  induction entries with
  | nil =>
      intro heap made _ _
      exact ⟨[], by rw [List.append_nil]; rfl, rfl⟩
  | cons p ps ih =>
      intro heap made hnd hfits
      obtain ⟨hp, hnd⟩ := List.nodup_cons.mp hnd
      obtain ⟨d, hd⟩ := Entry.isSome_getDebugData (hfits p List.mem_cons_self)
      have hsame : ∀ q ∈ ps, Function.update heap p
          { heap p with id := UInt64.ofNat made.length + 1 } q = heap q := by
        intro q hq
        apply Function.update_of_ne
        intro h
        exact hp (h ▸ hq)
      obtain ⟨ds, hds, hmap⟩ := ih
        (Function.update heap p { heap p with id := UInt64.ofNat made.length + 1 }) (made ++ [d]) hnd
        (fun q hq => by rw [hsame q hq]; exact hfits q (List.mem_cons_of_mem p hq))
      refine ⟨d :: ds, ?_, ?_⟩
      · rw [List.length_append, List.length_singleton, numbered_cons hp] at hds
        unfold createDebugDataForVector
        simp only [Function.update_self, Entry.getDebugData_id, hd]
        rw [hds, List.append_assoc, List.singleton_append]
      · rw [List.map_cons, List.map_cons, hmap, hd]
        congr 1
        apply List.map_congr_left
        intro q hq
        rw [hsame q hq]

theorem createDebugDataForVector_append : ∀ (ps qs : List EntryPtr) (heap : EntryPtr → Entry)
    (made : List DebugData),
    createDebugDataForVector heap (ps ++ qs) made
      = match createDebugDataForVector heap ps made with
        | none => none
        | some (heap, made) => createDebugDataForVector heap qs made := by
  intro ps
  induction ps with
  | nil => intro qs heap made; rfl
  | cons p ps ih =>
      intro qs heap made
      simp only [List.cons_append, createDebugDataForVector]
      cases ((Function.update heap p { heap p with id := UInt64.ofNat made.length + 1 }) p).getDebugData with
      | none => rfl
      | some d => exact ih qs _ _

/-- The vectors are numbered as one. -/
theorem createDebugData_flatten : ∀ (allEntries : List (List EntryPtr)) (heap : EntryPtr → Entry)
    (made : List DebugData),
    createDebugData heap allEntries made
      = createDebugDataForVector heap allEntries.flatten made := by
  intro allEntries
  induction allEntries with
  | nil => intro heap made; rfl
  | cons entries rest ih =>
      intro heap made
      rw [List.flatten_cons, createDebugDataForVector_append]
      unfold createDebugData
      cases createDebugDataForVector heap entries made with
      | none => rfl
      | some made => exact ih _ _

-- ======================================================== read back

/-- A map of debug data has the keys 1 to n, and the entries' own
records under their ids, which are their own. -/
structure UnderIds (heap : EntryPtr → Entry) (entries : List EntryPtr)
    (debugData : UInt64 → Option DebugData) : Prop where
  keys : ∀ k, (debugData k).isSome ↔ 1 ≤ k.toNat ∧ k.toNat ≤ entries.length
  records : ∀ p ∈ entries, ∃ d, (heap p).getDebugData = some d ∧ debugData (heap p).id = some d
  id_ne_zero : ∀ p ∈ entries, (heap p).id ≠ 0
  id_injective : ∀ p ∈ entries, ∀ q ∈ entries, (heap p).id = (heap q).id → p = q

/-- The file the pass produces for the entries is read back under their
ids. -/
def ReadBack (heap : EntryPtr → Entry) (allEntries : List (List EntryPtr)) : Prop :=
  ∃ heap' debugData file,
    createDebugData heap allEntries [] = some (heap', debugData)
      ∧ writeDebugData debugData = some file
      ∧ UnderIds heap' allEntries.flatten (getDebugData file)

section ReadBack

variable {heap : EntryPtr → Entry} {allEntries : List (List EntryPtr)}

/-- The id of the k-th entry. -/
theorem toNat_numbered_id (heap : EntryPtr → Entry) {entries : List EntryPtr} {p : EntryPtr} (hp : p ∈ entries)
    (hle : entries.length ≤ intMax) :
    (numbered heap 0 entries p).id.toNat = entries.idxOf p + 1 := by
  have hlt := List.idxOf_lt_length_of_mem hp
  have hmax : intMax < 2 ^ 32 := by decide
  unfold numbered
  rw [if_pos hp]
  show (UInt64.ofNat (0 + entries.idxOf p) + 1).toNat = _
  rw [Nat.zero_add, UInt64.toNat_add, UInt64.toNat_ofNat', UInt64.toNat_one]
  omega

/-- The record at the place of an entry is the entry's. -/
theorem getElem?_records {entries : List EntryPtr} {ds : List DebugData}
    (hmap : ds.map some = entries.map fun p => (heap p).getDebugData) {p : EntryPtr}
    (hp : p ∈ entries) : ds[entries.idxOf p]? = (heap p).getDebugData := by
  have h := congrArg (fun l => l[entries.idxOf p]?) hmap
  simp only [List.getElem?_map, List.getElem?_idxOf hp, Option.map_some] at h
  cases hd : ds[entries.idxOf p]? with
  | none => rw [hd] at h; cases h
  | some d => rw [hd] at h; exact Option.some.inj h

/-- The map the pretty printer reads. -/
theorem getDebugData_flatMap {ds : List DebugData} (hle : ds.length ≤ intMax) (k : UInt64) :
    getDebugData (ds.flatMap DebugData.bytes) k
      = if 1 ≤ k.toNat ∧ k.toNat < 1 + ds.length then ds[k.toNat - 1]? else none := by
  have hmax : intMax < 2 ^ 32 := by decide
  exact readRecords_flatMap ds 1 (fun _ => none) (by omega) k

/-- As many entries as an `int` counts are read back. -/
theorem readBack_of_le (hnodup : allEntries.flatten.Nodup)
    (hfits : ∀ p ∈ allEntries.flatten, (heap p).Fits) (hle : allEntries.flatten.length ≤ intMax) :
    ReadBack heap allEntries := by
  obtain ⟨ds, hcreate, hmap⟩ := createDebugDataForVector_eq allEntries.flatten heap [] hnodup hfits
  have hlen : ds.length = allEntries.flatten.length := by
    rw [← List.length_map (f := some), hmap, List.length_map]
  have hds : ds.length ≤ intMax := by rw [hlen]; exact hle
  refine ⟨numbered heap 0 allEntries.flatten, ds, ds.flatMap DebugData.bytes, ?_, ?_, ?_⟩
  · rw [createDebugData_flatten, hcreate]
    rfl
  · exact writeRecords_of_le ds 0 (by rw [Nat.zero_add]; exact hds)
  · constructor
    · intro k
      rw [getDebugData_flatMap hds, ← hlen]
      by_cases hk : 1 ≤ k.toNat ∧ k.toNat < 1 + ds.length
      · rw [if_pos hk, List.getElem?_eq_getElem (by omega)]
        exact ⟨fun _ => by omega, fun _ => rfl⟩
      · rw [if_neg hk]
        exact ⟨fun h => (Bool.false_ne_true h).elim, fun h => absurd ⟨h.1, by omega⟩ hk⟩
    · intro p hp
      have hlt := List.idxOf_lt_length_of_mem hp
      obtain ⟨d, hd⟩ := Entry.isSome_getDebugData (hfits p hp)
      refine ⟨d, ?_, ?_⟩
      · unfold numbered
        rw [if_pos hp]
        exact hd
      · rw [getDebugData_flatMap hds, toNat_numbered_id heap hp hle, if_pos (by omega),
          Nat.add_sub_cancel, getElem?_records hmap hp, hd]
    · intro p hp hz
      have hid := toNat_numbered_id heap hp hle
      rw [hz, UInt64.toNat_zero] at hid
      omega
    · intro p hp q hq heq
      have hid := congrArg UInt64.toNat heq
      rw [toNat_numbered_id heap hp hle, toNat_numbered_id heap hq hle] at hid
      exact (List.idxOf_inj hp).mp (Nat.add_right_cancel hid)

/-- More entries than an `int` counts are not. -/
theorem not_readBack_of_gt (hnodup : allEntries.flatten.Nodup)
    (hfits : ∀ p ∈ allEntries.flatten, (heap p).Fits) (hgt : intMax < allEntries.flatten.length) :
    ¬ ReadBack heap allEntries := by
  rintro ⟨heap', debugData, file, hcreate, hwrite, -⟩
  obtain ⟨ds, hds, hmap⟩ := createDebugDataForVector_eq allEntries.flatten heap [] hnodup hfits
  have hlen : ds.length = allEntries.flatten.length := by
    rw [← List.length_map (f := some), hmap, List.length_map]
  rw [createDebugData_flatten, hds] at hcreate
  injection hcreate with hcreate
  injection hcreate with _ hdata
  rw [← hdata, List.nil_append, writeDebugData,
    writeRecords_of_gt ds 0 (Nat.zero_le _) (by rw [hlen]; omega)] at hwrite
  cases hwrite

end ReadBack

/-- Pairwise distinct entries with strings that fit are read back under
their ids exactly when there are fewer than 2^31. -/
theorem readBack_iff (heap : EntryPtr → Entry) (allEntries : List (List EntryPtr))
    (hnodup : allEntries.flatten.Nodup) (hfits : ∀ p ∈ allEntries.flatten, (heap p).Fits) :
    ReadBack heap allEntries ↔ allEntries.flatten.length < 2 ^ 31 := by
  constructor
  · intro h
    by_contra hge
    exact not_readBack_of_gt hnodup hfits (by unfold intMax; omega) h
  · intro hlt
    exact readBack_of_le hnodup hfits (by unfold intMax; omega)

/-- Three entries in two of six vectors. -/
theorem readBack_threeEntries :
    ReadBack (fun p => ⟨[47], [UInt8.ofNat p], 7, 1, 0⟩) [[5, 3], [], [], [], [4], []] := by
  refine (readBack_iff _ _ (by decide) fun p _ => ?_).mpr (by decide)
  have hshort : 1 < stringSize := by decide
  exact ⟨hshort, hshort⟩

/-- Only stores, too many of them. -/
theorem not_readBack_stores {n : Nat} (h : intMax < n) :
    ¬ ReadBack (fun _ => ⟨[], [], 0, 0, 0⟩) [[], [], [], [], List.range n, []] := by
  have hflat : ([[], [], [], [], List.range n, []] : List (List EntryPtr)).flatten
      = List.range n := by
    simp only [List.flatten_cons, List.flatten_nil, List.nil_append, List.append_nil]
  refine not_readBack_of_gt ?_ ?_ ?_
  · rw [hflat]
    exact List.nodup_range
  · intro p _
    exact ⟨by decide, by decide⟩
  · rw [hflat, List.length_range]
    exact h

/-- 2^31 stores. -/
theorem not_readBack_intMax :
    ¬ ReadBack (fun _ => ⟨[], [], 0, 0, 0⟩) [[], [], [], [], List.range (2 ^ 31), []] :=
  not_readBack_stores (by decide)

end Carmot.Pass
