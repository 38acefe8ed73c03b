/-
  Extended attributes: what `setxattr` leaves, and what `getxattr` and `listxattr` answer.
-/
import Aegir.Posix.Descriptors

namespace Aegir.Posix

def kAttrNameMax : ℕ := 255
def kAttrDataMax : ℕ := 117 * 8

def kOk : ℕ := 0
def kUnsupported : ℕ := 1
def kNotFound : ℕ := 2
def kInvalidName : ℕ := 3
def kReadOnly : ℕ := 4
def kNoSpace : ℕ := 5
def kNotADirectory : ℕ := 6
def kIsADirectory : ℕ := 7
def kPermission : ℕ := 8

inductive StatusErrno where
  | opnotsupp | nodata | range | rofs | nospc | notdir | isdir | acces | io
  deriving DecidableEq

def statusErrno (status : ℕ) : StatusErrno :=
  if status = kUnsupported then .opnotsupp
  else if status = kNotFound then .nodata
  else if status = kInvalidName then .range
  else if status = kReadOnly then .rofs
  else if status = kNoSpace then .nospc
  else if status = kNotADirectory then .notdir
  else if status = kIsADirectory then .isdir
  else if status = kPermission then .acces
  else .io

/-- The attributes of a file, in the order the volume lists them. -/
structure Attributes where
  all : List (Bytes × Bytes)
  once : (all.map Prod.fst).Nodup
  short : ∀ p ∈ all, p.1.length ≤ kAttrNameMax

namespace Attributes

variable (a : Attributes)

def value (name : Bytes) : Option Bytes := a.all.lookup name

def attrRead (name : Bytes) (offset length : ℕ) : ℕ × Bytes :=
  match a.value name with
  | none => (kNotFound, [])
  | some value => (kOk, (value.drop offset).take (min length kAttrDataMax))

def attrList (index : ℕ) : ℕ × Bytes :=
  match a.all[index]? with
  | none => (kNotFound, [])
  | some (name, _) => if kAttrNameMax < name.length then (kNotFound, []) else (kOk, name)

def listing : Bytes := a.all.flatMap fun p => p.1 ++ [0]

variable {a} {index : ℕ}

theorem attrList_of_lt (h : index < a.all.length) : a.attrList index = (kOk, a.all[index].1) := by
  rw [attrList, List.getElem?_eq_getElem h]
  exact if_neg (Nat.not_lt.2 (a.short _ (List.getElem_mem h)))

theorem attrList_of_le (h : a.all.length ≤ index) : a.attrList index = (kNotFound, []) := by
  rw [attrList, List.getElem?_eq_none h]

theorem attrList_lt (h : (a.attrList index).1 ≠ kNotFound) : index < a.all.length := by
  by_contra hge
  exact h (congrArg Prod.fst (attrList_of_le (Nat.not_lt.1 hge)))

end Attributes

/-- A volume with attributes on a file.  It may refuse a write; one that it takes lies over the value
    that is there, and the rest is kept. -/
structure AttrVolume (σ : Type) where
  attributes : σ → Attributes
  onAttrWrite : (name : Bytes) → (offset : ℕ) → Bytes → σ → ℕ × σ
  write_ok : ∀ {name offset bytes s s'}, onAttrWrite name offset bytes s = (kOk, s') →
    (attributes s').value name = some (splice (((attributes s).value name).getD []) offset bytes)

section
variable {σ : Type} (v : AttrVolume σ)

def attrWrite (name : Bytes) (offset : ℕ) (data : Bytes) (s : σ) : ℕ × σ :=
  if kAttrDataMax < data.length then (kNoSpace, s) else v.onAttrWrite name offset data s

/-- The loop of `write_attribute`: the last status. -/
def writeChunks (name : Bytes) (offset : ℕ) (bytes : Bytes) (s : σ) : ℕ × σ :=
  if bytes = [] then (kOk, s)
  else
    let written := attrWrite v name offset (bytes.take kAttrDataMax) s
    if written.1 ≠ kOk then written
    else writeChunks name (offset + (bytes.take kAttrDataMax).length) (bytes.drop kAttrDataMax) written.2
termination_by bytes.length
decreasing_by
  rw [List.length_drop]
  exact Nat.sub_lt (List.length_pos_of_ne_nil ‹_›) (by decide)

def writeAttribute (name value : Bytes) (s : σ) : Except StatusErrno Unit × σ :=
  let written := if value = [] then attrWrite v name 0 [] s else writeChunks v name 0 value s
  (if written.1 ≠ kOk then .error (statusErrno written.1) else .ok (), written.2)

end

section
variable (a : Attributes)

/-- The loop of `read_attribute`: the bytes that are in the caller's buffer. -/
def readChunks (name : Bytes) (size offset : ℕ) (out : Bytes) : Except StatusErrno Bytes :=
  if offset < size then
    let got := a.attrRead name offset (min (size - offset) kAttrDataMax)
    if got.1 ≠ kOk then .error (statusErrno got.1)
    else if got.2 = [] then .ok out
    else readChunks name size (offset + got.2.length) (out ++ got.2)
  else .ok out
termination_by size - offset
decreasing_by exact Nat.sub_lt_sub_left ‹offset < size› (Nat.lt_add_of_pos_right (List.length_pos_of_ne_nil ‹_›))

/-- What the call answers, and the bytes in the caller's buffer. -/
def readAttribute (name : Bytes) (size : ℕ) : Except StatusErrno (ℕ × Bytes) :=
  match a.value name with
  | none => .error (statusErrno kNotFound)
  | some value =>
    if size = 0 then .ok (value.length, [])
    else if size < value.length then .error .range
    else (readChunks a name value.length 0 []).map (value.length, ·)

/-- The first loop of `list_attributes`: the bytes the names take. -/
def namesTotal (index total : ℕ) : Except StatusErrno ℕ :=
  let listed := a.attrList index
  if h : listed.1 = kNotFound then .ok total
  else if listed.1 ≠ kOk then .error (statusErrno listed.1)
  else namesTotal (index + 1) (total + (listed.2.length + 1))
termination_by a.all.length - index
decreasing_by
  have := Attributes.attrList_lt h
  omega

/-- The second loop: the names in the caller's buffer. -/
def copyNames (index : ℕ) (list : Bytes) : Bytes :=
  let listed := a.attrList index
  if h : listed.1 ≠ kOk then list else copyNames (index + 1) (list ++ (listed.2 ++ [0]))
termination_by a.all.length - index
decreasing_by
  have hok : listed.1 = kOk := not_not.1 h
  have : index < a.all.length := Attributes.attrList_lt (by rw [hok]; decide)
  omega

def listAttributes (size : ℕ) : Except StatusErrno (ℕ × Bytes) :=
  (namesTotal a 0 0).bind fun total =>
    if size = 0 then .ok (total, [])
    else if size < total then .error .range
    else .ok ((copyNames a 0 []).length, copyNames a 0 [])

end

/-! ## What is written -/

section
variable {σ : Type} {v : AttrVolume σ} {name value : Bytes} {s s' : σ}

theorem attrWrite_ok {offset : ℕ} {bytes : Bytes} (h : attrWrite v name offset bytes s = (kOk, s')) :
    (v.attributes s').value name = some (splice (((v.attributes s).value name).getD []) offset bytes) := by
  unfold attrWrite at h
  split at h
  · cases h
  · exact v.write_ok h

theorem writeChunks_ok {bytes : Bytes} (hne : bytes ≠ []) {offset : ℕ} (h : writeChunks v name offset bytes s = (kOk, s')) :
    (v.attributes s').value name = some (splice (((v.attributes s).value name).getD []) offset bytes) := by
  induction hn : bytes.length using Nat.strong_induction_on generalizing bytes offset s with
  | _ n ih =>
    rw [writeChunks, if_neg hne] at h
    dsimp only at h
    split at h
    · next hstatus => exact absurd (congrArg Prod.fst h) hstatus
    · next hstatus =>
      have hfirst := attrWrite_ok (Prod.ext (not_not.1 hstatus) rfl)
      by_cases hlast : bytes.drop kAttrDataMax = []
      · rw [hlast, writeChunks, if_pos rfl] at h
        cases h
        have hshort : bytes.length ≤ kAttrDataMax := List.drop_eq_nil_iff.1 hlast
        rwa [List.take_of_length_le hshort] at hfirst ⊢
      · have hlt : (bytes.drop kAttrDataMax).length < n := by
          rw [← hn, List.length_drop]
          exact Nat.sub_lt (List.length_pos_of_ne_nil hne) (by decide)
        rw [ih _ hlt hlast h rfl, hfirst, Option.getD_some, splice_splice, List.take_append_drop]

theorem last_ok {written : ℕ × σ}
    (h : ((if written.1 ≠ kOk then .error (statusErrno written.1) else .ok () : Except StatusErrno Unit), written.2) =
      (.ok (), s')) : written = (kOk, s') := by
  obtain ⟨hstatus, rfl⟩ := Prod.mk.inj h
  split at hstatus
  · cases hstatus
  · next hok => exact Prod.ext (not_not.1 hok) rfl

/-- **A value that was set lies over the earlier one**, whose rest is still there. -/
theorem writeAttribute_ok (h : writeAttribute v name value s = (.ok (), s')) :
    (v.attributes s').value name = some (value ++ (((v.attributes s).value name).getD []).drop value.length) := by
  have hwritten := last_ok h
  split at hwritten
  · next hnil =>
    subst hnil
    rw [attrWrite_ok hwritten]
    rfl
  · next hne =>
    rw [writeChunks_ok hne hwritten, splice, if_neg hne, Nat.zero_sub, Nat.zero_add]
    rfl

end

/-! ## What is read -/

section
variable {a : Attributes} {name value : Bytes}

theorem readChunks_eq (h : a.value name = some value) (offset : ℕ) (out : Bytes) :
    readChunks a name value.length offset out = .ok (out ++ value.drop offset) := by
  induction hn : value.length - offset using Nat.strong_induction_on generalizing offset out with
  | _ n ih =>
    rw [readChunks]
    split
    · next hlt =>
      have hread : a.attrRead name offset (min (value.length - offset) kAttrDataMax) =
          (kOk, (value.drop offset).take kAttrDataMax) := by
        rw [Attributes.attrRead, h]
        simp only [min_assoc, min_self]
        rw [Nat.min_comm, ← List.length_drop, ← List.take_take, List.take_length]
      have hrest : value.drop offset ≠ [] := fun hnil => Nat.not_le.2 hlt (List.drop_eq_nil_iff.1 hnil)
      have hsome : (value.drop offset).take kAttrDataMax ≠ [] := by
        rw [Ne, List.take_eq_nil_iff]
        exact not_or.2 ⟨by decide, hrest⟩
      have hpos := List.length_pos_of_ne_nil hsome
      rw [hread]
      dsimp only
      rw [if_neg (not_not.2 rfl), if_neg hsome, ih _ (by omega) _ _ rfl, List.append_assoc, ← List.drop_drop]
      have hdrop : (value.drop offset).drop ((value.drop offset).take kAttrDataMax).length =
          (value.drop offset).drop kAttrDataMax := by
        rw [List.length_take, List.drop_eq_drop_iff]
        omega
      rw [hdrop, List.take_append_drop]
    · next hge => rw [List.drop_of_length_le (Nat.not_lt.1 hge), List.append_nil]

theorem readAttribute_eq (h : a.value name = some value) (size : ℕ) : readAttribute a name size =
    if size = 0 then .ok (value.length, []) else if size < value.length then .error .range else .ok (value.length, value) := by
  unfold readAttribute
  rw [h]
  dsimp only
  rw [readChunks_eq h]
  rfl

/-! ## What is listed -/

theorem namesTotal_eq (index total : ℕ) :
    namesTotal a index total = .ok (total + ((a.all.drop index).flatMap fun p => p.1 ++ [0]).length) := by
  induction hn : a.all.length - index generalizing index total with
  | zero =>
    have hle : a.all.length ≤ index := by omega
    rw [namesTotal]
    simp [Attributes.attrList_of_le hle, List.drop_of_length_le hle]
  | succ n ih =>
    have hlt : index < a.all.length := by omega
    rw [namesTotal, List.drop_eq_getElem_cons hlt, List.flatMap_cons, List.length_append, List.length_append]
    simp only [Attributes.attrList_of_lt hlt]
    rw [dif_neg (by decide), if_neg (by decide), ih (index + 1) _ (by omega), Nat.add_assoc]
    rfl

theorem copyNames_eq (index : ℕ) (list : Bytes) :
    copyNames a index list = list ++ (a.all.drop index).flatMap fun p => p.1 ++ [0] := by
  induction hn : a.all.length - index generalizing index list with
  | zero =>
    have hle : a.all.length ≤ index := by omega
    rw [copyNames]
    simp [Attributes.attrList_of_le hle, List.drop_of_length_le hle, kOk, kNotFound]
  | succ n ih =>
    have hlt : index < a.all.length := by omega
    rw [copyNames, List.drop_eq_getElem_cons hlt, List.flatMap_cons]
    simp only [Attributes.attrList_of_lt hlt]
    rw [dif_neg (by decide), ih (index + 1) _ (by omega), List.append_assoc]

theorem listAttributes_eq (size : ℕ) : listAttributes a size =
    if size = 0 then .ok (a.listing.length, [])
    else if size < a.listing.length then .error .range
    else .ok (a.listing.length, a.listing) := by
  unfold listAttributes
  rw [namesTotal_eq, copyNames_eq, Nat.zero_add, List.nil_append, List.drop_zero]
  rfl

end

/-! ## The round trip -/

section
variable {σ : Type} {v : AttrVolume σ} {name value : Bytes} {s s' : σ}

/-- What a caller that has set a value is promised: it gets the value, and a buffer of the size
    `listxattr` reports gets every name, each once. -/
structure RoundTrip (a : Attributes) (name value : Bytes) : Prop where
  get : ∀ size, value.length ≤ size → readAttribute a name size = .ok (value.length, value)
  list : listAttributes a 0 = .ok (a.listing.length, []) ∧
    listAttributes a a.listing.length = .ok (a.listing.length, a.listing)
  once : (a.all.map Prod.fst).Nodup

/-- **A value that was set is what is got, exactly where no earlier value is longer.** -/
theorem setxattr_round_trip_iff (h : writeAttribute v name value s = (.ok (), s')) :
    RoundTrip (v.attributes s') name value ↔ ∀ old, (v.attributes s).value name = some old → old.length ≤ value.length := by
  have hset := writeAttribute_ok h
  constructor
  · intro hround old hold
    have hget := hround.get _ (Nat.le_max_left value.length (max 1 (value.length + old.length)))
    rw [hold, Option.getD_some] at hset
    have hle : (value ++ old.drop value.length).length ≤ max value.length (max 1 (value.length + old.length)) := by
      rw [List.length_append, List.length_drop]
      omega
    rw [readAttribute_eq hset, if_neg (by omega), if_neg (Nat.not_lt.2 hle)] at hget
    have hlength := congrArg Prod.fst (Except.ok.inj hget)
    simp only [List.length_append, List.length_drop] at hlength
    omega
  · intro hle
    have hrest : (((v.attributes s).value name).getD []).drop value.length = [] := by
      cases hold : (v.attributes s).value name with
      | none => exact List.drop_nil
      | some old => exact List.drop_of_length_le (hle old hold)
    rw [hrest, List.append_nil] at hset
    refine ⟨fun size hsize => ?_, ⟨?_, ?_⟩, (v.attributes s').once⟩
    · rw [readAttribute_eq hset]
      split
      · next hzero =>
        obtain rfl : value = [] := List.eq_nil_of_length_eq_zero (by omega)
        rfl
      · exact if_neg (Nat.not_lt.2 hsize)
    · rw [listAttributes_eq, if_pos rfl]
    · rw [listAttributes_eq]
      split
      · next hzero => rw [List.eq_nil_of_length_eq_zero hzero]
      · exact if_neg (Nat.lt_irrefl _)

end

/-- A file whose one attribute is named `a`. -/
def oneAttribute : AttrVolume (Option Bytes) where
  attributes value :=
    { all := value.toList.map fun value => ([97], value)
      once := by cases value <;> simp
      short := by cases value <;> simp [kAttrNameMax] }
  onAttrWrite name offset bytes value :=
    if name = [97] then (kOk, some (splice (value.getD []) offset bytes)) else (kNoSpace, value)
  write_ok {name offset bytes value value'} h := by
    split at h
    · next hname =>
      subst hname
      cases h
      cases value <;> rfl
    · cases h

/-- The value is set where there was none. -/
theorem setxattr_round_trip_first : RoundTrip (oneAttribute.attributes (some [120])) [97] [120] :=
  (setxattr_round_trip_iff (v := oneAttribute) (s := none) (by simp [writeAttribute, writeChunks, attrWrite, oneAttribute, kOk, kAttrDataMax, splice])).2 fun _ h => by cases h

/-- A shorter value was set over a longer one. -/
theorem setxattr_keeps_the_rest :
    writeAttribute oneAttribute [97] [120] (some [98, 99]) = (.ok (), some [120, 99]) ∧
      ¬RoundTrip (oneAttribute.attributes (some [120, 99])) [97] [120] := by
  have hset : writeAttribute oneAttribute [97] [120] (some [98, 99]) = (.ok (), some [120, 99]) := by
    simp [writeAttribute, writeChunks, attrWrite, oneAttribute, kOk, kAttrDataMax, splice]
  refine ⟨hset, fun h => ?_⟩
  have hget := h.get 8 (by decide)
  have hvalue : (oneAttribute.attributes (some [120, 99])).value [97] = some [120, 99] := rfl
  rw [readAttribute_eq hvalue] at hget
  exact absurd hget (by decide)

end Aegir.Posix
