/-
The dictionary window (`internal/pkg/compress/dict.go`).

`dupeDict` and `updateSlice` are the two functions of the file on raw slices,
where a reslice may fail. A `DictT` carries the fact that its slice lies in an
array of 64 KiB, so for it neither fails, and what a reader sees of it is the
last 64 KiB of everything it was given (`DictT.data_new`, `DictT.data_update`).
-/
import Plz4.Lib.Slice
import Plz4.Io

set_option autoImplicit false

namespace Plz4

/-- `lz4DictSz`. -/
def lz4DictSz : ℕ := 64 <<< 10

/-! ## The two functions on raw slices -/

/-- `dupeDict`. -/
def dupeDict (data : Bytes) : Option (Slice UInt8) :=
  let dict : Slice UInt8 := ⟨List.replicate lz4DictSz 0, 0⟩
  if data.length ≤ lz4DictSz then some (dict.append data)
  else
    let extra := data.length - lz4DictSz
    (dict.reslice lz4DictSz).map (fun d => d.copy (data.drop extra))

/-- `DictT.Update` on the slice. -/
def updateSlice (r : Slice UInt8) (dstPtr : Bytes) : Option (Slice UInt8) :=
  if dstPtr.length ≥ lz4DictSz then
    (r.reslice lz4DictSz).map (fun d => d.copy (dstPtr.drop (dstPtr.length - lz4DictSz)))
  else if r.len + dstPtr.length > lz4DictSz then
    let extra := r.len + dstPtr.length - lz4DictSz
    (r.dataFrom extra).bind (fun kept =>
      ((r.copy kept).reslice (r.len - extra)).map (fun d => d.append dstPtr))
  else some (r.append dstPtr)

/-- A slice cut to all of its array and overwritten with as many elements. -/
theorem reslice_copy_spec {s : Slice UInt8} {n : ℕ} (h : s.Ok n) (src : Bytes)
    (hsrc : src.length = n) :
    ∃ r, (s.reslice n).map (fun d => d.copy src) = some r ∧ r.Ok n ∧ r.data = src := by
  obtain ⟨hre, hok⟩ := h.reslice (Nat.le_refl n)
  have htake := hok.take_copy (k := n) src (by omega) (Nat.le_refl n)
  refine ⟨(⟨s.arr, n⟩ : Slice UInt8).copy src, by rw [hre, Option.map_some], hok.copy src, ?_⟩
  rw [Slice.data]
  change ((⟨s.arr, n⟩ : Slice UInt8).copy src).arr.take n = src
  rw [htake, List.take_of_length_le (by omega)]

theorem dupeDict_spec (data : Bytes) :
    ∃ r, dupeDict data = some r ∧ r.Ok lz4DictSz ∧ r.data = data.rtake lz4DictSz := by
  have hzero : (⟨List.replicate lz4DictSz 0, 0⟩ : Slice UInt8).Ok lz4DictSz :=
    ⟨List.length_replicate, Nat.zero_le _⟩
  by_cases hle : data.length ≤ lz4DictSz
  · obtain ⟨hok, hdata⟩ := hzero.append data (by simpa using hle)
    refine ⟨_, by simp only [dupeDict, if_pos hle], hok, ?_⟩
    rw [hdata, List.rtake_of_length_le hle]
    rfl
  · obtain ⟨r, hr, hok, hdata⟩ := reslice_copy_spec hzero
      (data.drop (data.length - lz4DictSz)) (by rw [List.length_drop]; omega)
    exact ⟨r, by simp only [dupeDict, if_neg hle, hr], hok, hdata⟩

/-- On a slice of a 64 KiB array no reslice fails, no append moves the array, and
the visible part is the window after the update. -/
theorem updateSlice_spec {r : Slice UInt8} (h : r.Ok lz4DictSz) (dstPtr : Bytes) :
    ∃ r', updateSlice r dstPtr = some r' ∧ r'.Ok lz4DictSz
      ∧ r'.data = (r.data ++ dstPtr).rtake lz4DictSz := by
  have hlen := h.length_data
  by_cases hbig : dstPtr.length ≥ lz4DictSz
  · obtain ⟨r', hr, hok, hdata⟩ := reslice_copy_spec h
      (dstPtr.drop (dstPtr.length - lz4DictSz)) (by rw [List.length_drop]; omega)
    refine ⟨r', by rw [updateSlice, if_pos hbig, hr], hok, ?_⟩
    rw [hdata, List.rtake_append_of_le _ hbig, List.rtake]
  by_cases hover : r.len + dstPtr.length > lz4DictSz
  · -- the old window moves down by `extra`, then the block is appended in place
    set extra := r.len + dstPtr.length - lz4DictSz with hextra
    have hmoved := h.copy (r.data.drop extra)
    have hle := h.len
    have hfrom : r.dataFrom extra = some (r.data.drop extra) := by
      apply Slice.dataFrom_of_le
      omega
    obtain ⟨hre, hok⟩ := hmoved.reslice (k := r.len - extra) (by omega)
    have hkeep := h.take_copy (k := r.len - extra) (r.data.drop extra)
      (by rw [List.length_drop, hlen]) (by omega)
    have hdrop : (r.data.drop extra).take (r.len - extra) = r.data.drop extra :=
      List.take_of_length_le (by rw [List.length_drop, hlen])
    obtain ⟨hok', hdata⟩ := hok.append dstPtr (by change r.len - extra + _ ≤ _; omega)
    refine ⟨_, ?_, hok', ?_⟩
    · rw [updateSlice, if_neg hbig, if_pos hover]
      dsimp only
      rw [← hextra, hfrom, Option.bind_some, hre, Option.map_some]
    rw [hdata, Slice.data, List.rtake, List.length_append, hlen, ← hextra,
      List.drop_append_of_le_length (by rw [hlen]; omega)]
    change (r.copy (r.data.drop extra)).arr.take (r.len - extra) ++ _ = _
    rw [hkeep, hdrop]
  · obtain ⟨hok, hdata⟩ := h.append dstPtr (by omega)
    refine ⟨_, by rw [updateSlice, if_neg hbig, if_neg hover], hok, ?_⟩
    rw [hdata, List.rtake_of_length_le (by rw [List.length_append, hlen]; omega)]

/-! ## The dictionary -/

/-- `DictT`. -/
structure DictT where
  dict : Slice UInt8
  linked : Bool
  ok : dict.Ok lz4DictSz

theorem dupeDict_isSome (data : Bytes) : (dupeDict data).isSome = true := by
  obtain ⟨r, hr, -⟩ := dupeDict_spec data
  rw [hr, Option.isSome_some]

theorem dupeDict_get_ok (data : Bytes) :
    ((dupeDict data).get (dupeDict_isSome data)).Ok lz4DictSz := by
  obtain ⟨r, hr, hok, -⟩ := dupeDict_spec data
  simpa only [hr, Option.get_some] using hok

/-- `NewDictT`. -/
def newDictT (data : Bytes) (linked : Bool) : DictT :=
  ⟨(dupeDict data).get (dupeDict_isSome data), linked, dupeDict_get_ok data⟩

namespace DictT

/-- `DictT.Data`. -/
def data (r : DictT) : Bytes := r.dict.data

/-- `DictT.NeedsUpdate`. -/
def needsUpdate (r : DictT) : Bool := r.linked

theorem update_isSome (r : DictT) (dstPtr : Bytes) :
    (updateSlice r.dict dstPtr).isSome = true := by
  obtain ⟨r', hr, -⟩ := updateSlice_spec r.ok dstPtr
  rw [hr, Option.isSome_some]

theorem update_get_ok (r : DictT) (dstPtr : Bytes) :
    ((updateSlice r.dict dstPtr).get (r.update_isSome dstPtr)).Ok lz4DictSz := by
  obtain ⟨r', hr, hok, -⟩ := updateSlice_spec r.ok dstPtr
  simpa only [hr, Option.get_some] using hok

/-- `DictT.Update`. -/
def update (r : DictT) (dstPtr : Bytes) : DictT :=
  ⟨(updateSlice r.dict dstPtr).get (r.update_isSome dstPtr), r.linked, r.update_get_ok dstPtr⟩

/-- A new dictionary is the last 64 KiB of the data. -/
@[simp] theorem data_new (data : Bytes) (linked : Bool) :
    (newDictT data linked).data = data.rtake lz4DictSz := by
  obtain ⟨r, hr, -, hdata⟩ := dupeDict_spec data
  simpa only [newDictT, DictT.data, hr, Option.get_some] using hdata

@[simp] theorem linked_new (data : Bytes) (linked : Bool) :
    (newDictT data linked).linked = linked := rfl

/-- An update slides the window over the block. -/
@[simp] theorem data_update (r : DictT) (dstPtr : Bytes) :
    (r.update dstPtr).data = (r.data ++ dstPtr).rtake lz4DictSz := by
  obtain ⟨r', hr, -, hdata⟩ := updateSlice_spec r.ok dstPtr
  simpa only [update, DictT.data, hr, Option.get_some] using hdata

@[simp] theorem linked_update (r : DictT) (dstPtr : Bytes) :
    (r.update dstPtr).linked = r.linked := rfl

theorem dict_new (data : Bytes) (linked : Bool) :
    dupeDict data = some (newDictT data linked).dict :=
  (Option.some_get (dupeDict_isSome data)).symm

/-- The dictionary that carries its invariant goes with the raw slice. -/
theorem dict_foldl_update (blks : List Bytes) (r : DictT) :
    blks.foldlM updateSlice r.dict = some (blks.foldl update r).dict := by
  induction blks generalizing r with
  | nil => rfl
  | cons b blks ih =>
      have hstep : updateSlice r.dict b = some (r.update b).dict :=
        (Option.some_get (r.update_isSome b)).symm
      rw [List.foldlM_cons, hstep]
      exact ih (r.update b)

end DictT

/-! ## The array of a dictionary

Go would let an `append` that does not fit move the slice to a larger array. The two functions
once more, with such an `append` a failure like a reslice out of range: that neither ever
happens is what keeps the window in its 64 KiB. -/

/-- `dupeDict`, which may not leave its array. -/
def dupeInPlace (data : Bytes) : Option (Slice UInt8) :=
  let dict : Slice UInt8 := ⟨List.replicate lz4DictSz 0, 0⟩
  if data.length ≤ lz4DictSz then dict.appendInPlace data
  else
    let extra := data.length - lz4DictSz
    (dict.reslice lz4DictSz).map (fun d => d.copy (data.drop extra))

/-- `DictT.Update`, which may not leave its array. -/
def updateInPlace (r : Slice UInt8) (dstPtr : Bytes) : Option (Slice UInt8) :=
  if dstPtr.length ≥ lz4DictSz then
    (r.reslice lz4DictSz).map (fun d => d.copy (dstPtr.drop (dstPtr.length - lz4DictSz)))
  else if r.len + dstPtr.length > lz4DictSz then
    let extra := r.len + dstPtr.length - lz4DictSz
    (r.dataFrom extra).bind (fun kept =>
      ((r.copy kept).reslice (r.len - extra)).bind (fun d => d.appendInPlace dstPtr))
  else r.appendInPlace dstPtr

theorem dupeInPlace_eq (data : Bytes) : dupeInPlace data = dupeDict data := by
  unfold dupeInPlace dupeDict
  by_cases hle : data.length ≤ lz4DictSz
  · rw [if_pos hle, if_pos hle]
    have hzero : (⟨List.replicate lz4DictSz 0, 0⟩ : Slice UInt8).Ok lz4DictSz :=
      ⟨List.length_replicate, Nat.zero_le _⟩
    apply hzero.appendInPlace
    rw [Nat.zero_add]
    exact hle
  · rw [if_neg hle, if_neg hle]

/-- In an array of 64 KiB every append of an update fits. -/
theorem updateInPlace_eq {r : Slice UInt8} (h : r.Ok lz4DictSz) (dstPtr : Bytes) :
    updateInPlace r dstPtr = updateSlice r dstPtr := by
  unfold updateInPlace updateSlice
  by_cases hbig : dstPtr.length ≥ lz4DictSz
  · rw [if_pos hbig, if_pos hbig]
  rw [if_neg hbig, if_neg hbig]
  by_cases hover : r.len + dstPtr.length > lz4DictSz
  · rw [if_pos hover, if_pos hover]
    -- what is left of the old window makes room for exactly the block
    have hle := h.len
    simp only
    generalize hextra : r.len + dstPtr.length - lz4DictSz = extra
    have hroom : r.len - extra ≤ lz4DictSz := by omega
    have hfit : r.len - extra + dstPtr.length ≤ lz4DictSz := by omega
    obtain ⟨hre, hok⟩ := (h.copy (r.data.drop extra)).reslice hroom
    rw [Slice.dataFrom_of_le (by omega), Option.bind_some, Option.bind_some, hre,
      Option.bind_some, Option.map_some]
    exact hok.appendInPlace dstPtr hfit
  · rw [if_neg hover, if_neg hover]
    apply h.appendInPlace
    omega

/-- A history of updates, one block after the other. -/
theorem foldlM_update (blks : List Bytes) {r : Slice UInt8} (h : r.Ok lz4DictSz) :
    ∃ r', blks.foldlM updateInPlace r = some r' ∧ blks.foldlM updateSlice r = some r'
      ∧ r'.Ok lz4DictSz
      ∧ r'.data.rtake lz4DictSz = (r.data ++ blks.flatten).rtake lz4DictSz := by
  induction blks generalizing r with
  | nil =>
      refine ⟨r, rfl, rfl, h, ?_⟩
      rw [List.flatten_nil, List.append_nil]
  | cons b blks ih =>
      obtain ⟨r₁, h₁, hok₁, hdata₁⟩ := updateSlice_spec h b
      obtain ⟨r', hplace, hslice, hok, hdata⟩ := ih hok₁
      refine ⟨r', ?_, ?_, hok, ?_⟩
      · rw [List.foldlM_cons, updateInPlace_eq h, h₁]
        exact hplace
      · rw [List.foldlM_cons, h₁]
        exact hslice
      · rw [hdata, hdata₁, List.rtake_rtake_append, List.flatten_cons, List.append_assoc]

/-- **The dictionary window.** From any initial data, after any number of updates with blocks
of any lengths, no reslice has gone out of range and no append has left the array: the
capacity is 64 KiB, and what `Data` shows is the last 64 KiB of everything given so far, or
all of it. -/
theorem dict_window (data : Bytes) (linked : Bool) (blks : List Bytes) :
    ∃ r₀ r, dupeInPlace data = some r₀ ∧ blks.foldlM updateInPlace r₀ = some r
      ∧ dupeDict data = some r₀ ∧ blks.foldlM updateSlice r₀ = some r
      ∧ r.cap = 65536
      ∧ r.data.length = min 65536 (data ++ blks.flatten).length
      ∧ r.data <:+ data ++ blks.flatten
      ∧ (blks.foldl DictT.update (newDictT data linked)).dict = r := by
  obtain ⟨r₀, hr₀, hok₀, hdata₀⟩ := dupeDict_spec data
  obtain ⟨r, hplace, hslice, hok, hdata⟩ := foldlM_update blks hok₀
  have hlen : r.data.length ≤ lz4DictSz := by
    rw [hok.length_data]
    exact hok.len
  have hwindow : r.data = (data ++ blks.flatten).rtake lz4DictSz := by
    rw [← List.rtake_of_length_le hlen, hdata, hdata₀, List.rtake_rtake_append]
  refine ⟨r₀, r, ?_, hplace, hr₀, hslice, hok.cap, ?_, ?_, ?_⟩
  · rw [dupeInPlace_eq, hr₀]
  · rw [hwindow, List.length_rtake]
    rfl
  · rw [hwindow]
    exact List.drop_suffix _ _
  · have hnew := DictT.dict_new data linked
    rw [hr₀] at hnew
    have hfold := DictT.dict_foldl_update blks (newDictT data linked)
    rw [← Option.some.inj hnew, hslice] at hfold
    exact (Option.some.inj hfold).symm

end Plz4
