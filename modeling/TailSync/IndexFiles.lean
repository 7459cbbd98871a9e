import TailSync.IndexMap
import TailSync.RelativePaths

/-!
The index on disk. Save writes the entries of the map as a JSON object, in the order of
their paths, and Load reads it back. encoding/json changes what it cannot write: a byte
that is not part of a character becomes U+FFFD, and a time outside the years 0 to 9999 is
an error. So an index survives exactly when all its strings are valid UTF-8 and all its
times lie in these years. Times are held and written in UTC.
-/
namespace TailSync.IndexFiles

open ByteStrings Entries IndexMap
open RelativePaths (acceptRanges validFrom validString)

def replacement : Bytes := [0xEF, 0xBF, 0xBD]

def continues : List (UInt8 × UInt8) → Bytes → Bool
  | [], _ => true
  | _ :: _, [] => false
  | (lo, hi) :: more, b :: rest => lo ≤ b && b ≤ hi && continues more rest

/-- Replace the bytes that are not part of a character; the first argument counts the bytes
that the current character still has. -/
def coerceFrom : ℕ → Bytes → Bytes
  | _, [] => []
  | k + 1, b :: rest => b :: coerceFrom k rest
  | 0, b :: rest =>
      match acceptRanges b with
      | some ranges =>
          if continues ranges rest then b :: coerceFrom ranges.length rest
          else replacement ++ coerceFrom 0 rest
      | none => replacement ++ coerceFrom 0 rest

def coerce (s : Bytes) : Bytes := coerceFrom 0 s

theorem continues_of_validFrom {pending : List (UInt8 × UInt8)} {s : Bytes}
    (h : validFrom pending s = true) : continues pending s = true := by
  induction pending generalizing s with
  | nil => rfl
  | cons r more ih =>
    cases s with
    | nil => exact absurd h (by simp [validFrom])
    | cons b rest =>
      simp only [validFrom, continues, Bool.and_eq_true] at h ⊢
      exact ⟨h.1, ih h.2⟩

theorem coerceFrom_of_valid {pending : List (UInt8 × UInt8)} {s : Bytes}
    (h : validFrom pending s = true) : coerceFrom pending.length s = s := by
  induction s generalizing pending with
  | nil => cases pending <;> rfl
  | cons b rest ih =>
    cases pending with
    | nil =>
      simp only [validFrom] at h
      cases hranges : acceptRanges b with
      | none => simp [hranges] at h
      | some ranges =>
        rw [hranges] at h
        simp only [List.length_nil, coerceFrom, hranges, continues_of_validFrom h, if_true, ih h]
    | cons r more =>
      simp only [validFrom, Bool.and_eq_true] at h
      simp only [List.length_cons, coerceFrom, ih h.2]

theorem validFrom_replacement (s : Bytes) : validFrom [] (replacement ++ s) = validFrom [] s := by
  simp [replacement, validFrom, acceptRanges]

theorem validFrom_coerceFrom {pending : List (UInt8 × UInt8)} {s : Bytes}
    (h : continues pending s = true) : validFrom pending (coerceFrom pending.length s) = true := by
  induction s generalizing pending with
  | nil =>
    cases pending with
    | nil => rfl
    | cons r more => exact absurd h (by simp [continues])
  | cons b rest ih =>
    cases pending with
    | nil =>
      have hnext : validFrom [] (coerceFrom 0 rest) = true := @ih [] rfl
      simp only [List.length_nil, coerceFrom]
      cases hranges : acceptRanges b with
      | none =>
        dsimp only
        rw [validFrom_replacement, hnext]
      | some ranges =>
        dsimp only
        split
        · rename_i hcontinues
          simp only [validFrom, hranges]
          exact ih hcontinues
        · rw [validFrom_replacement, hnext]
    | cons r more =>
      simp only [continues, Bool.and_eq_true] at h
      simp only [List.length_cons, coerceFrom, validFrom, Bool.and_eq_true]
      exact ⟨h.1, ih h.2⟩

theorem validString_coerce (s : Bytes) : validString (coerce s) = true :=
  @validFrom_coerceFrom [] s rfl

theorem coerce_of_valid {s : Bytes} (h : validString s = true) : coerce s = s :=
  coerceFrom_of_valid h

theorem validFrom_ascii {b : UInt8} (hb : b < 0x80) (s : Bytes) :
    validFrom [] (b :: s) = validFrom [] s := by
  simp [validFrom, acceptRanges, hb]

theorem hexDigit_ascii {n : UInt8} (hn : n < 16) : hexDigit n < 0x80 := by
  have hlt : n.toNat < 16 := hn
  unfold hexDigit
  split <;> simp only [UInt8.lt_iff_toNat_lt, UInt8.toNat_add, UInt8.reduceToNat] <;> omega

/-- A hash in hexadecimal is written as it is. -/
theorem validString_contentHash (sha256 : Bytes → Digest 32) (data : Bytes) :
    validString (contentHash sha256 data) = true := by
  unfold contentHash validString
  induction (sha256 data).val with
  | nil => rfl
  | cons b rest ih =>
    have hhigh : b / 16 < 16 := by
      simp only [UInt8.lt_iff_toNat_lt, UInt8.toNat_div, UInt8.reduceToNat]
      have := b.toNat_lt
      omega
    have hlow : b % 16 < 16 := by
      simp only [UInt8.lt_iff_toNat_lt, UInt8.toNat_mod, UInt8.reduceToNat]
      omega
    rw [hexEncode, validFrom_ascii (hexDigit_ascii hhigh), validFrom_ascii (hexDigit_ascii hlow),
      ih]

def day : ℤ := 86400 * 10 ^ 9

/-- The years 0 to 9999; year 0 has 366 days, and 3652059 days go from year 1 to the end. -/
def inYears (t : Time) : Bool := decide (-366 * day ≤ t ∧ t < 3652059 * day)

theorem inYears_zero : inYears 0 = true := by decide

def version : ℤ := 1

/-- The JSON shape; the pairs of an object in their order. -/
structure DiskFormat where
  version : ℤ
  files : List (Bytes × Entry)

structure Storable (e : Entry) : Prop where
  path : validString e.path = true
  hash : validString e.hash = true
  modTime : inYears e.modTime = true
  deletedAt : inYears e.deletedAt = true
  updatedAt : inYears e.updatedAt = true

def AllStorable (idx : Index) : Prop := ∀ e ∈ idx.files, Storable e

/-- json.MarshalIndent, when it does not fail, and json.Unmarshal. -/
structure IndexJson where
  marshalIndent : DiskFormat → Bytes
  unmarshal : Bytes → Option DiskFormat

/-- If JSON can write all of the value as it is, then unmarshalling the file with its JSON, which
ends in a newline, gives it back. -/
def IndexJson.Keeps (json : IndexJson) (df : DiskFormat) : Prop :=
  (∀ kv ∈ df.files, validString kv.1 = true ∧ Storable kv.2) →
    json.unmarshal (json.marshalIndent df ++ [10]) = some df

def coerceEntry (e : Entry) : Entry := { e with path := coerce e.path, hash := coerce e.hash }

def timesInYears (e : Entry) : Bool :=
  inYears e.modTime && inYears e.deletedAt && inYears e.updatedAt

def diskFormat (idx : Index) : DiskFormat :=
  ⟨version, (idx.files.mergeSort fun a b => decide (a.path ≤ b.path)).map fun e =>
    (coerce e.path, coerceEntry e)⟩

/-- Save, up to writing the file; no text stands for the encoding having failed. -/
def save (json : IndexJson) (idx : Index) : Option Bytes :=
  if idx.files.all timesInYears then some (json.marshalIndent (diskFormat idx) ++ [10]) else none

structure Loaded where
  version : ℤ
  files : Bytes → Option Entry

/-- The map that json.Unmarshal makes of an object: of two pairs with one key the later one
counts. An entry without a path gets its key. -/
def decodeFiles (files : List (Bytes × Entry)) (p : Bytes) : Option Entry :=
  (files.reverse.find? fun kv => kv.1 == p).map fun kv =>
    if kv.2.path = [] then { kv.2 with path := p } else kv.2

/-- Load; no file stands for one that does not exist. -/
def load (json : IndexJson) (file : Option Bytes) : Option Loaded :=
  match file with
  | none => some ⟨version, fun _ => none⟩
  | some data => (json.unmarshal data).map fun df =>
      ⟨if df.version = 0 then version else df.version, decodeFiles df.files⟩

/-- Save writes a file, and Load of it returns the same entries under the same paths, each
under its own. -/
def RoundTrips (json : IndexJson) (idx : Index) : Prop :=
  ∃ data loaded, save json idx = some data ∧ load json (some data) = some loaded ∧
    ∀ p, loaded.files p = idx.get p ∧ ∀ e, loaded.files p = some e → e.path = p

theorem AllStorable.of_get {idx : Index} (h : ∀ p e, idx.get p = some e → Storable e) :
    AllStorable idx := fun e he => h e.path e (Index.get_of_mem he)

theorem AllStorable.set {idx : Index} {e : Entry} (hidx : AllStorable idx) (he : Storable e) :
    AllStorable (idx.set e) := by
  refine .of_get fun p x hx => ?_
  by_cases hp : p = e.path
  · subst hp
    rw [Index.get_set_self] at hx
    cases hx
    exact he
  · rw [Index.get_set_of_ne idx e hp] at hx
    exact hidx x (Index.get_mem hx)

section RoundTrip
variable {json : IndexJson} {idx : Index}

theorem coerceEntry_storable {e : Entry} (h : timesInYears e = true) :
    Storable (coerceEntry e) := by
  simp only [timesInYears, Bool.and_eq_true] at h
  exact ⟨validString_coerce _, validString_coerce _, h.1.1, h.1.2, h.2⟩

theorem coerceEntry_of_storable {e : Entry} (h : Storable e) : coerceEntry e = e := by
  rw [coerceEntry, coerce_of_valid h.path, coerce_of_valid h.hash]

theorem Storable.times {e : Entry} (h : Storable e) : timesInYears e = true := by
  simp [timesInYears, h.modTime, h.deletedAt, h.updatedAt]

theorem mem_diskFormat {kv : Bytes × Entry} :
    kv ∈ (diskFormat idx).files ↔ ∃ e ∈ idx.files, kv = (coerce e.path, coerceEntry e) := by
  simp only [diskFormat, List.mem_map, List.mem_mergeSort]
  constructor
  · rintro ⟨e, he, rfl⟩
    exact ⟨e, he, rfl⟩
  · rintro ⟨e, he, rfl⟩
    exact ⟨e, he, rfl⟩

theorem save_eq_some {data : Bytes} : save json idx = some data ↔
    (∀ e ∈ idx.files, timesInYears e = true) ∧
      json.marshalIndent (diskFormat idx) ++ [10] = data := by
  simp [save]

/-- What has been written is read back as it was written. -/
theorem load_saved {data : Bytes} (hkeeps : json.Keeps (diskFormat idx))
    (hsave : save json idx = some data) :
    load json (some data) = some ⟨version, decodeFiles (diskFormat idx).files⟩ := by
  obtain ⟨htimes, rfl⟩ := save_eq_some.mp hsave
  have hread : json.unmarshal (json.marshalIndent (diskFormat idx) ++ [10]) =
      some (diskFormat idx) := by
    apply hkeeps
    intro kv hkv
    obtain ⟨e, he, rfl⟩ := mem_diskFormat.mp hkv
    exact ⟨validString_coerce _, coerceEntry_storable (htimes e he)⟩
  simp only [load, hread, Option.map_some]
  rfl

/-- A loaded entry is one of the index, as JSON has changed it. -/
theorem decodeFiles_some {p : Bytes} {x : Entry}
    (h : decodeFiles (diskFormat idx).files p = some x) :
    ∃ e ∈ idx.files, p = coerce e.path ∧ x = coerceEntry e := by
  obtain ⟨kv, hfind, rfl⟩ := Option.map_eq_some_iff.mp h
  have hkey : kv.1 = p := by simpa using List.find?_some hfind
  obtain ⟨e, he, rfl⟩ := mem_diskFormat.mp
    (List.mem_reverse.mp (List.mem_of_find?_eq_some hfind))
  refine ⟨e, he, hkey.symm, ?_⟩
  dsimp only
  split
  · rename_i hnil
    rw [← hkey]
    rfl
  · rfl

theorem decodeFiles_none {p : Bytes} (h : decodeFiles (diskFormat idx).files p = none) :
    ∀ e ∈ idx.files, coerce e.path ≠ p := by
  intro e he heq
  have hnone := List.find?_eq_none.mp (Option.map_eq_none_iff.mp h)
  have hmem := mem_diskFormat.mpr ⟨e, he, rfl⟩
  exact hnone _ (List.mem_reverse.mpr hmem) (by simpa using heq)

/-- An index survives a restart exactly when every entry of it can be stored. -/
theorem roundTrips_iff (hkeeps : json.Keeps (diskFormat idx)) :
    RoundTrips json idx ↔ AllStorable idx := by
  constructor
  · rintro ⟨data, loaded, hsave, hload, hsame⟩ e he
    rw [load_saved hkeeps hsave] at hload
    cases hload
    have hget : decodeFiles (diskFormat idx).files e.path = some e :=
      (hsame e.path).1.trans (Index.get_of_mem he)
    obtain ⟨e', he', hpath, rfl⟩ := decodeFiles_some hget
    exact coerceEntry_storable ((save_eq_some.mp hsave).1 e' he')
  · intro hstorable
    have hsave : save json idx = some (json.marshalIndent (diskFormat idx) ++ [10]) :=
      save_eq_some.mpr ⟨fun e he => (hstorable e he).times, rfl⟩
    refine ⟨_, _, hsave, load_saved hkeeps hsave, fun p => ?_⟩
    dsimp only
    cases hdecode : decodeFiles (diskFormat idx).files p with
    | none =>
      refine ⟨?_, fun e he => absurd he (by simp)⟩
      cases hget : idx.get p with
      | none => rfl
      | some e =>
        obtain ⟨hmem, rfl⟩ := Index.get_eq_some_iff.mp hget
        exact absurd (coerce_of_valid (hstorable e hmem).path) (decodeFiles_none hdecode e hmem)
    | some x =>
      obtain ⟨e, he, hpath, rfl⟩ := decodeFiles_some hdecode
      rw [coerce_of_valid (hstorable e he).path] at hpath
      rw [coerceEntry_of_storable (hstorable e he), hpath, Index.get_of_mem he]
      exact ⟨rfl, fun e' he' => by rw [← Option.some.inj he']⟩

end RoundTrip

end TailSync.IndexFiles
