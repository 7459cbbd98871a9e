import TailSync.ByteStrings

/-!
Path validation of internal/pathutil/pathutil.go and daemon/path.go on a Unix
host, where ToSlash and FromSlash change nothing. Paths are byte strings; the
parts of strings, path/filepath and io/fs that the code calls follow their
documented behaviour, including white space and validity of UTF-8 encodings.
The results say which strings CleanRel returns and which it leaves unchanged.
-/
namespace TailSync.RelativePaths

open ByteStrings

def dot : Bytes := ascii "."

def dotdot : Bytes := ascii ".."

def joinPath (elems : List Bytes) : Bytes := [slash].intercalate elems

def elements (path : Bytes) : List Bytes := path.splitOn slash

def whiteSpace : List Bytes :=
  [[0x09], [0x0A], [0x0B], [0x0C], [0x0D], [0x20], [0xC2, 0x85], [0xC2, 0xA0],
    [0xE1, 0x9A, 0x80], [0xE2, 0x80, 0x80], [0xE2, 0x80, 0x81], [0xE2, 0x80, 0x82],
    [0xE2, 0x80, 0x83], [0xE2, 0x80, 0x84], [0xE2, 0x80, 0x85], [0xE2, 0x80, 0x86],
    [0xE2, 0x80, 0x87], [0xE2, 0x80, 0x88], [0xE2, 0x80, 0x89], [0xE2, 0x80, 0x8A],
    [0xE2, 0x80, 0xA8], [0xE2, 0x80, 0xA9], [0xE2, 0x80, 0xAF], [0xE2, 0x81, 0x9F],
    [0xE3, 0x80, 0x80]]

def trimLeft : ℕ → Bytes → Bytes
  | 0, s => s
  | fuel + 1, s =>
      match whiteSpace.find? (fun w => w.isPrefixOf s) with
      | some w => trimLeft fuel (s.drop w.length)
      | none => s

def trimRight : ℕ → Bytes → Bytes
  | 0, s => s
  | fuel + 1, s =>
      match whiteSpace.find? (fun w => w.isSuffixOf s) with
      | some w => trimRight fuel (s.take (s.length - w.length))
      | none => s

/-- strings.TrimSpace. A white-space rune shortens the string, so its length
bounds the number of runes removed. -/
def trimSpace (s : Bytes) : Bytes :=
  let t := trimLeft s.length s
  trimRight t.length t

/-- The ranges the continuation bytes after a leading byte have to fall in,
none for a byte that leads no encoding. -/
def acceptRanges (a : UInt8) : Option (List (UInt8 × UInt8)) :=
  if a < 0x80 then some []
  else if a < 0xC2 then none
  else if a < 0xE0 then some [(0x80, 0xBF)]
  else if a = 0xE0 then some [(0xA0, 0xBF), (0x80, 0xBF)]
  else if a = 0xED then some [(0x80, 0x9F), (0x80, 0xBF)]
  else if a < 0xF0 then some [(0x80, 0xBF), (0x80, 0xBF)]
  else if a = 0xF0 then some [(0x90, 0xBF), (0x80, 0xBF), (0x80, 0xBF)]
  else if a < 0xF4 then some [(0x80, 0xBF), (0x80, 0xBF), (0x80, 0xBF)]
  else if a = 0xF4 then some [(0x80, 0x8F), (0x80, 0xBF), (0x80, 0xBF)]
  else none

def validFrom : List (UInt8 × UInt8) → Bytes → Bool
  | [], [] => true
  | _ :: _, [] => false
  | [], a :: rest =>
      match acceptRanges a with
      | some ranges => validFrom ranges rest
      | none => false
  | (lo, hi) :: pending, b :: rest => lo ≤ b && b ≤ hi && validFrom pending rest

/-- utf8.ValidString: shortest encodings of code points other than surrogates. -/
def validString (s : Bytes) : Bool := validFrom [] s

/-- One element of filepath.Clean; the kept elements are a stack. -/
def cleanStep (rooted : Bool) (stack : List Bytes) (elem : Bytes) : List Bytes :=
  if elem = [] ∨ elem = dot then stack
  else if elem = dotdot then
    match stack with
    | [] => if rooted then [] else [dotdot]
    | top :: below => if top = dotdot then dotdot :: stack else below
  else elem :: stack

def cleanStack (rooted : Bool) (path : Bytes) : List Bytes :=
  (elements path).foldl (cleanStep rooted) []

def clean (path : Bytes) : Bytes :=
  if path = [] then dot
  else if path.head? = some slash then slash :: joinPath (cleanStack true path).reverse
  else if cleanStack false path = [] then dot
  else joinPath (cleanStack false path).reverse

def validPath (name : Bytes) : Bool :=
  validString name &&
    (name == dot || (elements name).all fun e => e != [] && e != dot && e != dotdot)

def isLocal (path : Bytes) : Bool :=
  if path.head? = some slash ∨ path = [] then false
  else
    let p := if (elements path).any (fun e => e == dot || e == dotdot) then clean path else path
    !(p == dotdot || (dotdot ++ [slash]).isPrefixOf p)

def join (a b : Bytes) : Bytes := clean (a ++ slash :: b)

/-- The elements filepath.Rel compares; the root has one empty element. -/
def relElements (path : Bytes) : List Bytes :=
  if path = dot then [] else if path = [slash] then [[]] else elements path

def stripCommon : List Bytes → List Bytes → List Bytes × List Bytes
  | b :: base, t :: targ => if b = t then stripCommon base targ else (b :: base, t :: targ)
  | base, targ => (base, targ)

def rel (basepath targpath : Bytes) : Option Bytes :=
  let base := clean basepath
  let targ := clean targpath
  if targ = base then some dot
  else if (base.head? = some slash) ≠ (targ.head? = some slash) then none
  else
    let left := stripCommon (relElements base) (relElements targ)
    if left.1.head? = some dotdot then none
    else some (joinPath (left.1.map (fun _ => dotdot) ++ left.2))

def isReservedComponent (name : Bytes) : Bool :=
  name == ascii ".tailsync" || (ascii ".tailsync-").isPrefixOf name

inductive PathError where
  | invalid (path : Bytes)
  | reserved (path : Bytes)
  | escapesRoot (path : Bytes)
  deriving DecidableEq, Repr

def cleanRel (s : Bytes) : Except PathError Bytes :=
  let path := trimSpace s
  if path = [] ∨ path.head? = some slash then .error (.invalid path)
  else
    let cleaned := clean path
    if cleaned = dot ∨ cleaned = [] ∨ validPath cleaned = false then .error (.invalid path)
    else if (elements cleaned).any isReservedComponent then .error (.reserved path)
    else if isLocal cleaned then .ok cleaned
    else .error (.invalid path)

def relPath (dir s : Bytes) : Except PathError Bytes :=
  match cleanRel s with
  | .error e => .error e
  | .ok cleaned =>
      match rel dir (join dir cleaned) with
      | some relCheck => if isLocal relCheck then .ok cleaned else .error (.escapesRoot s)
      | none => .error (.escapesRoot s)

def IsElement (e : Bytes) : Prop := e ≠ [] ∧ slash ∉ e ∧ e ≠ dot ∧ e ≠ dotdot

instance (e : Bytes) : Decidable (IsElement e) := by
  unfold IsElement
  infer_instance

theorem joinPath_elements (p : Bytes) : joinPath (elements p) = p := List.intercalate_splitOn slash

theorem elements_joinPath {es : List Bytes} (h : ∀ e ∈ es, slash ∉ e) (hne : es ≠ []) :
    elements (joinPath es) = es := List.splitOn_intercalate slash h hne

theorem elements_ne_nil (p : Bytes) : elements p ≠ [] := List.splitOn_ne_nil slash p

theorem elements_append (p q : Bytes) :
    elements (p ++ slash :: q) = elements p ++ elements q := List.splitOn_append_cons_self p q

theorem elements_cons_slash (p : Bytes) : elements (slash :: p) = [] :: elements p :=
  elements_append [] p

theorem joinPath_append {es fs : List Bytes} (he : es ≠ []) (hf : fs ≠ []) :
    joinPath (es ++ fs) = joinPath es ++ slash :: joinPath fs := by
  induction es with
  | nil => exact absurd rfl he
  | cons e rest ih =>
    obtain ⟨f, fs, rfl⟩ := List.exists_cons_of_ne_nil hf
    cases rest with
    | nil => simp [joinPath]
    | cons e' rest => simpa [joinPath] using ih (by simp)

theorem slash_notMem_element (p : Bytes) : ∀ e ∈ elements p, slash ∉ e := by
  induction p with
  | nil =>
    intro e he
    simp [elements, List.splitOn_nil] at he
    simp [he]
  | cons b rest ih =>
    intro e he
    rw [elements, List.splitOn_cons_eq_if_modifyHead] at he
    obtain ⟨first, others, hsplit⟩ := List.exists_cons_of_ne_nil (elements_ne_nil rest)
    rw [elements] at hsplit
    by_cases hb : b = slash
    · simp only [hb, beq_self_eq_true, if_true, List.mem_cons] at he
      rcases he with rfl | he
      · simp
      · exact ih e he
    · have hbeq : (b == slash) = false := by simpa using hb
      simp only [hbeq, hsplit, List.modifyHead_cons] at he
      rcases List.mem_cons.mp he with rfl | he
      · have hfirst := ih first (by simp [elements, hsplit])
        simp [Ne.symm hb, hfirst]
      · exact ih e (by simp [elements, hsplit, he])

/-- A path all of whose elements are proper does not begin with a slash. -/
theorem head_ne_slash {p : Bytes} (h : ∀ e ∈ elements p, IsElement e) :
    p ≠ [] ∧ p.head? ≠ some slash := by
  constructor
  · rintro rfl
    exact (h [] (by simp [elements, List.splitOn_nil])).1 rfl
  · intro hhead
    cases p with
    | nil => simp at hhead
    | cons b rest =>
      have hb : b = slash := by simpa using hhead
      subst hb
      exact (h [] (by simp [elements_cons_slash])).1 rfl

theorem cleanStep_element (rooted : Bool) (stack : List Bytes) {e : Bytes} (he : IsElement e) :
    cleanStep rooted stack e = e :: stack := by
  obtain ⟨hnil, _, hdot, hdotdot⟩ := he
  simp [cleanStep, hnil, hdot, hdotdot]

theorem foldl_cleanStep (rooted : Bool) (es stack : List Bytes) (h : ∀ e ∈ es, IsElement e) :
    es.foldl (cleanStep rooted) stack = es.reverse ++ stack := by
  induction es generalizing stack with
  | nil => rfl
  | cons e rest ih =>
    rw [List.foldl_cons, cleanStep_element rooted stack (h e (by simp)),
      ih _ fun x hx => h x (by simp [hx])]
    simp

/-- A path made of proper elements is already clean. -/
theorem clean_eq_self {p : Bytes} (h : ∀ e ∈ elements p, IsElement e) : clean p = p := by
  obtain ⟨hnil, hhead⟩ := head_ne_slash h
  have hstack : cleanStack false p = (elements p).reverse := by
    rw [cleanStack, foldl_cleanStep false _ _ h, List.append_nil]
  rw [clean, if_neg hnil, if_neg hhead, hstack]
  simp [elements_ne_nil, joinPath_elements]

/-- Dots around a path of proper elements disappear. -/
theorem clean_dotted {p : Bytes} (h : ∀ e ∈ elements p, IsElement e) :
    clean (dot ++ slash :: (p ++ slash :: dot)) = p := by
  have helems : elements (dot ++ slash :: (p ++ slash :: dot)) = dot :: (elements p ++ [dot]) := by
    rw [elements_append, elements_append]
    rfl
  have hdot : ∀ stack, cleanStep false stack dot = stack := by simp [cleanStep]
  have hstack : cleanStack false (dot ++ slash :: (p ++ slash :: dot)) =
      (elements p).reverse := by
    rw [cleanStack, helems, List.foldl_cons, List.foldl_append, hdot,
      foldl_cleanStep false _ _ h, List.append_nil]
    exact hdot _
  rw [clean, if_neg (by simp [dot, ascii]), if_neg (by simp [dot, ascii, slash]), hstack]
  simp [elements_ne_nil, joinPath_elements]

def span (es : List Bytes) : ℕ := (es.map fun e => e.length + 1).sum

theorem span_cons (e : Bytes) (es : List Bytes) : span (e :: es) = e.length + 1 + span es := by
  simp [span]

theorem joinPath_length (es : List Bytes) (h : es ≠ []) :
    (joinPath es).length + 1 = span es := by
  induction es with
  | nil => exact absurd rfl h
  | cons e rest ih =>
    cases rest with
    | nil => simp [joinPath, span]
    | cons e' rest =>
      have hrest := ih (by simp)
      have hjoin : joinPath (e :: e' :: rest) = e ++ slash :: joinPath (e' :: rest) := by
        simp [joinPath]
      rw [hjoin, span_cons, ← hrest]
      simp only [List.length_append, List.length_cons]
      omega

theorem span_reverse (es : List Bytes) : span es.reverse = span es := by
  simp [span, List.sum_reverse]

theorem span_cleanStep_le (rooted : Bool) (stack : List Bytes) (e : Bytes) :
    span (cleanStep rooted stack e) ≤ span stack + (e.length + 1) := by
  unfold cleanStep
  by_cases hskip : e = [] ∨ e = dot
  · rw [if_pos hskip]
    omega
  rw [if_neg hskip]
  by_cases hup : e = dotdot
  · rw [if_pos hup, hup]
    cases stack with
    | nil => cases rooted <;> simp [span, dotdot, ascii]
    | cons top below =>
      by_cases htop : top = dotdot
      · simp only [htop, if_true, span_cons]
        omega
      · simp only [if_neg htop, span_cons]
        omega
  · rw [if_neg hup, span_cons]
    omega

theorem span_foldl_cleanStep_le (rooted : Bool) (es stack : List Bytes) :
    span (es.foldl (cleanStep rooted) stack) ≤ span stack + span es := by
  induction es generalizing stack with
  | nil => simp [span]
  | cons e rest ih =>
    have hstep := span_cleanStep_le rooted stack e
    have hrest := ih (cleanStep rooted stack e)
    simp only [List.foldl_cons, span_cons]
    omega

/-- Cleaning a relative path never makes it longer. -/
theorem clean_length_le {p : Bytes} (hnil : p ≠ []) (hhead : p.head? ≠ some slash) :
    (clean p).length ≤ p.length := by
  rw [clean, if_neg hnil, if_neg hhead]
  split_ifs with hempty
  · have := List.length_pos_iff.mpr hnil
    simp [dot, ascii]
    omega
  · have hjoin := joinPath_length (cleanStack false p).reverse (by simpa using hempty)
    have hspan := span_foldl_cleanStep_le false (elements p) []
    have hp := joinPath_length (elements p) (elements_ne_nil p)
    rw [joinPath_elements] at hp
    rw [span_reverse, cleanStack] at hjoin
    have hzero : span [] = 0 := rfl
    rw [cleanStack]
    omega

def StartsWithSpace (s : Bytes) : Prop := ∃ w ∈ whiteSpace, w <+: s

def EndsWithSpace (s : Bytes) : Prop := ∃ w ∈ whiteSpace, w <:+ s

instance (s : Bytes) : Decidable (StartsWithSpace s) := by
  unfold StartsWithSpace
  infer_instance

instance (s : Bytes) : Decidable (EndsWithSpace s) := by
  unfold EndsWithSpace
  infer_instance

theorem whiteSpace_length_pos : ∀ w ∈ whiteSpace, 0 < w.length := by decide

theorem startsWithSpace_length_pos {s : Bytes} (h : StartsWithSpace s) : 0 < s.length := by
  obtain ⟨w, hw, hprefix⟩ := h
  exact (whiteSpace_length_pos w hw).trans_le hprefix.length_le

theorem endsWithSpace_length_pos {s : Bytes} (h : EndsWithSpace s) : 0 < s.length := by
  obtain ⟨w, hw, hsuffix⟩ := h
  exact (whiteSpace_length_pos w hw).trans_le hsuffix.length_le

/-- With fuel for every byte, what is cut off in front are white-space runes, and none is
left there. -/
theorem trimLeft_spec (fuel : ℕ) {s : Bytes} (hfuel : s.length ≤ fuel) :
    ∃ l : List Bytes, (∀ w ∈ l, w ∈ whiteSpace) ∧ s = l.flatten ++ trimLeft fuel s ∧
      ¬ StartsWithSpace (trimLeft fuel s) := by
  induction fuel generalizing s with
  | zero =>
    refine ⟨[], by simp, rfl, fun h => ?_⟩
    exact absurd (startsWithSpace_length_pos h) (Nat.not_lt.mpr hfuel)
  | succ fuel ih =>
    cases hfind : whiteSpace.find? (fun w => w.isPrefixOf s) with
    | none =>
      simp only [trimLeft, hfind]
      refine ⟨[], by simp, rfl, ?_⟩
      rintro ⟨w, hw, hprefix⟩
      exact List.find?_eq_none.mp hfind w hw (List.isPrefixOf_iff_prefix.mpr hprefix)
    | some w =>
      have hw := List.mem_of_find?_eq_some hfind
      have hfound := List.find?_some hfind
      obtain ⟨u, rfl⟩ := List.isPrefixOf_iff_prefix.mp hfound
      have hpos := whiteSpace_length_pos w hw
      have hlen : u.length ≤ fuel := by
        rw [List.length_append] at hfuel
        omega
      obtain ⟨l, hl, hu, hstart⟩ := ih hlen
      simp only [trimLeft, hfind, List.drop_left]
      refine ⟨w :: l, List.forall_mem_cons.mpr ⟨hw, hl⟩, ?_, hstart⟩
      rw [List.flatten_cons, List.append_assoc, ← hu]

theorem trimRight_spec (fuel : ℕ) {s : Bytes} (hfuel : s.length ≤ fuel) :
    ∃ r : List Bytes, (∀ w ∈ r, w ∈ whiteSpace) ∧ s = trimRight fuel s ++ r.flatten ∧
      ¬ EndsWithSpace (trimRight fuel s) := by
  induction fuel generalizing s with
  | zero =>
    refine ⟨[], by simp, (List.append_nil s).symm, fun h => ?_⟩
    exact absurd (endsWithSpace_length_pos h) (Nat.not_lt.mpr hfuel)
  | succ fuel ih =>
    cases hfind : whiteSpace.find? (fun w => w.isSuffixOf s) with
    | none =>
      simp only [trimRight, hfind]
      refine ⟨[], by simp, (List.append_nil s).symm, ?_⟩
      rintro ⟨w, hw, hsuffix⟩
      exact List.find?_eq_none.mp hfind w hw (List.isSuffixOf_iff_suffix.mpr hsuffix)
    | some w =>
      have hw := List.mem_of_find?_eq_some hfind
      have hfound := List.find?_some hfind
      obtain ⟨u, rfl⟩ := List.isSuffixOf_iff_suffix.mp hfound
      have hpos := whiteSpace_length_pos w hw
      have hlen : u.length ≤ fuel := by
        rw [List.length_append] at hfuel
        omega
      obtain ⟨r, hr, hu, hend⟩ := ih hlen
      simp only [trimRight, hfind, List.length_append, Nat.add_sub_cancel, List.take_left]
      refine ⟨r ++ [w], List.forall_mem_append.mpr ⟨hr, by simpa using hw⟩, ?_, hend⟩
      rw [List.flatten_append, List.flatten_singleton, ← List.append_assoc, ← hu]

/-- TrimSpace cuts white-space runes off both ends and leaves none there. -/
theorem trimSpace_spec (s : Bytes) :
    ∃ l r : List Bytes, (∀ w ∈ l, w ∈ whiteSpace) ∧ (∀ w ∈ r, w ∈ whiteSpace) ∧
      s = l.flatten ++ trimSpace s ++ r.flatten ∧
      ¬ StartsWithSpace (trimSpace s) ∧ ¬ EndsWithSpace (trimSpace s) := by
  obtain ⟨l, hl, hs, hstart⟩ := trimLeft_spec s.length (Nat.le_refl s.length)
  obtain ⟨r, hr, ht, hend⟩ :=
    trimRight_spec (trimLeft s.length s).length (Nat.le_refl (trimLeft s.length s).length)
  change _ = trimSpace s ++ r.flatten at ht
  refine ⟨l, r, hl, hr, ?_, ?_, hend⟩
  · rw [List.append_assoc, ← ht, ← hs]
  · rintro ⟨w, hw, hprefix⟩
    refine hstart ⟨w, hw, ?_⟩
    rw [ht]
    exact hprefix.trans (List.prefix_append _ _)

/-- TrimSpace keeps a string exactly when neither end is white space, and
otherwise shortens it. -/
theorem trimSpace_cases (s : Bytes) :
    (¬ StartsWithSpace s ∧ ¬ EndsWithSpace s ∧ trimSpace s = s) ∨
    ((StartsWithSpace s ∨ EndsWithSpace s) ∧ (trimSpace s).length < s.length) := by
  obtain ⟨l, r, hl, hr, hs, hstart, hend⟩ := trimSpace_spec s
  generalize trimSpace s = t at hs hstart hend ⊢
  subst hs
  rcases List.eq_nil_or_concat' r with rfl | ⟨r, w, rfl⟩
  · cases l with
    | nil =>
      rw [List.flatten_nil, List.nil_append, List.append_nil]
      exact Or.inl ⟨hstart, hend, rfl⟩
    | cons w l =>
      have hw := hl w List.mem_cons_self
      have hpos := whiteSpace_length_pos w hw
      refine Or.inr ⟨Or.inl ⟨w, hw, ?_⟩, ?_⟩
      · rw [List.flatten_cons, List.append_assoc, List.append_assoc]
        exact List.prefix_append _ _
      · simp only [List.flatten_cons, List.length_append]
        omega
  · have hw := hr w (by simp)
    have hpos := whiteSpace_length_pos w hw
    refine Or.inr ⟨Or.inr ⟨w, hw, ?_⟩, ?_⟩
    · rw [List.flatten_append, List.flatten_singleton, ← List.append_assoc]
      exact List.suffix_append _ _
    · simp only [List.flatten_append, List.flatten_singleton, List.length_append]
      omega

/-- The paths CleanRel returns: valid UTF-8 made of proper elements, none reserved. -/
def CleanPath (p : Bytes) : Prop :=
  validString p = true ∧ ∀ e ∈ elements p, IsElement e ∧ isReservedComponent e = false

instance (p : Bytes) : Decidable (CleanPath p) := by
  unfold CleanPath
  infer_instance

theorem isLocal_of_isElement {p : Bytes} (h : ∀ e ∈ elements p, IsElement e) :
    isLocal p = true := by
  obtain ⟨hnil, hhead⟩ := head_ne_slash h
  have hdots : (elements p).any (fun e => e == dot || e == dotdot) = false := by
    rw [List.any_eq_false]
    intro e he
    obtain ⟨_, _, hdot, hdotdot⟩ := h e he
    simp [hdot, hdotdot]
  have hup : p ≠ dotdot := by
    rintro rfl
    exact (h dotdot (by decide +kernel)).2.2.2 rfl
  have hpre : (dotdot ++ [slash]).isPrefixOf p = false := by
    rw [← Bool.not_eq_true, List.isPrefixOf_iff_prefix]
    rintro ⟨rest, rfl⟩
    refine (h dotdot ?_).2.2.2 rfl
    rw [List.append_assoc, List.singleton_append, elements_append]
    exact List.mem_append_left _ (by decide +kernel)
  simp [isLocal, hnil, hhead, hdots, hup, hpre]

namespace CleanPath
variable {p : Bytes}

theorem isElement (h : CleanPath p) : ∀ e ∈ elements p, IsElement e := fun e he => (h.2 e he).1

theorem ne_dot (h : CleanPath p) : p ≠ dot := by
  rintro rfl
  exact (h.isElement dot (by decide +kernel)).2.2.1 rfl

theorem validPath (h : CleanPath p) : validPath p = true := by
  simp only [RelativePaths.validPath, h.1, Bool.true_and, Bool.or_eq_true, List.all_eq_true]
  right
  intro e he
  obtain ⟨hnil, _, hdot, hdotdot⟩ := h.isElement e he
  simp [hnil, hdot, hdotdot]

theorem not_reserved (h : CleanPath p) : (elements p).any isReservedComponent = false := by
  rw [List.any_eq_false]
  intro e he
  simp [(h.2 e he).2]

theorem isLocal (h : CleanPath p) : isLocal p = true := isLocal_of_isElement h.isElement

end CleanPath

private def highRanges (ranges : Option (List (UInt8 × UInt8))) : Bool :=
  ranges.all fun rs => rs.all fun r => decide (slash < r.1)

private theorem highRanges_ite (c : Prop) [Decidable c] {x y : Option (List (UInt8 × UInt8))}
    (hx : highRanges x = true) (hy : highRanges y = true) :
    highRanges (if c then x else y) = true := by
  split
  · exact hx
  · exact hy

theorem acceptRanges_high {a : UInt8} {ranges : List (UInt8 × UInt8)}
    (h : acceptRanges a = some ranges) : ∀ r ∈ ranges, slash < r.1 := by
  have htable : highRanges (acceptRanges a) = true := by
    unfold acceptRanges
    repeat' apply highRanges_ite
    all_goals rfl
  rw [h] at htable
  intro r hr
  exact of_decide_eq_true (List.all_eq_true.mp htable r hr)

/-- A slash cannot stand inside the encoding of a rune. -/
theorem validFrom_left (a b : Bytes) (pending : List (UInt8 × UInt8))
    (hpending : ∀ r ∈ pending, slash < r.1)
    (h : validFrom pending (a ++ slash :: b) = true) : validFrom pending a = true := by
  induction a generalizing pending with
  | nil =>
    cases pending with
    | nil => rfl
    | cons r pending =>
      have hlow := hpending r (by simp)
      simp only [List.nil_append, validFrom, Bool.and_eq_true, decide_eq_true_eq] at h
      exact absurd h.1.1 (not_le.mpr hlow)
  | cons x rest ih =>
    cases pending with
    | nil =>
      simp only [List.cons_append, validFrom] at h ⊢
      cases hr : acceptRanges x with
      | none => simp [hr] at h
      | some ranges =>
        simp only [hr] at h
        exact ih ranges (acceptRanges_high hr) h
    | cons r pending =>
      simp only [List.cons_append, validFrom, Bool.and_eq_true] at h ⊢
      exact ⟨h.1, ih pending (fun s hs => hpending s (by simp [hs])) h.2⟩

theorem CleanPath.parent {es fs : List Bytes} (he : es ≠ []) (hf : fs ≠ [])
    (h : CleanPath (joinPath (es ++ fs))) (hes : ∀ e ∈ es ++ fs, slash ∉ e) :
    CleanPath (joinPath es) := by
  have hall := h.2
  rw [elements_joinPath hes (by simp [he])] at hall
  have hvalid := h.1
  rw [joinPath_append he hf] at hvalid
  refine ⟨validFrom_left _ _ [] (by simp) hvalid, ?_⟩
  rw [elements_joinPath (fun e hmem => hes e (by simp [hmem])) he]
  intro e hmem
  exact hall e (by simp [hmem])

theorem cleanRel_ok {s p : Bytes} (h : cleanRel s = .ok p) :
    p = clean (trimSpace s) ∧ trimSpace s ≠ [] ∧ (trimSpace s).head? ≠ some slash ∧
      CleanPath p := by
  unfold cleanRel at h
  simp only at h
  split_ifs at h with h1 h2 h3 h4
  rw [not_or] at h1 h2
  obtain ⟨hdot, h2⟩ := h2
  rw [not_or, Bool.not_eq_false] at h2
  cases h
  refine ⟨rfl, h1.1, h1.2, ?_⟩
  have hvalid := h2.2
  simp only [validPath, Bool.and_eq_true, Bool.or_eq_true, beq_iff_eq, List.all_eq_true] at hvalid
  refine ⟨hvalid.1, ?_⟩
  intro e he
  rcases hvalid.2 with heq | hall
  · exact absurd heq hdot
  · have hparts := hall e he
    simp only [bne_iff_ne] at hparts
    refine ⟨⟨hparts.1.1, slash_notMem_element _ e he, hparts.1.2, hparts.2⟩, ?_⟩
    have hnot := List.any_eq_false.mp (Bool.not_eq_true _ ▸ h3) e he
    simpa using hnot

theorem cleanRel_eq_ok {s p : Bytes} (hclean : clean (trimSpace s) = p) (hp : CleanPath p)
    (hnil : trimSpace s ≠ []) (hhead : (trimSpace s).head? ≠ some slash) :
    cleanRel s = .ok p := by
  obtain ⟨hpnil, _⟩ := head_ne_slash hp.isElement
  simp [cleanRel, hnil, hhead, hclean, hp.ne_dot, hpnil, hp.validPath, hp.not_reserved,
    hp.isLocal]

/-- CleanRel leaves a clean path without surrounding white space unchanged. -/
theorem cleanRel_self {p : Bytes} (hp : CleanPath p) (hstart : ¬ StartsWithSpace p)
    (hend : ¬ EndsWithSpace p) : cleanRel p = .ok p := by
  have htrim : trimSpace p = p := by
    rcases trimSpace_cases p with ⟨_, _, h⟩ | ⟨h, _⟩
    · exact h
    · exact absurd h (by simp [hstart, hend])
  obtain ⟨hnil, hhead⟩ := head_ne_slash hp.isElement
  exact cleanRel_eq_ok (by rw [htrim, clean_eq_self hp.isElement]) hp
    (by rwa [htrim]) (by rwa [htrim])

/-- A path that CleanRel returns unchanged has no white space around it. -/
theorem cleanRel_self_trim {p : Bytes} (h : cleanRel p = .ok p) :
    ¬ StartsWithSpace p ∧ ¬ EndsWithSpace p := by
  obtain ⟨hp, hnil, hhead, _⟩ := cleanRel_ok h
  rcases trimSpace_cases p with ⟨hstart, hend, _⟩ | ⟨_, hlt⟩
  · exact ⟨hstart, hend⟩
  · have hle := clean_length_le hnil hhead
    rw [← hp] at hle
    omega

theorem cleanRel_self_iff {p : Bytes} :
    cleanRel p = .ok p ↔ CleanPath p ∧ ¬ StartsWithSpace p ∧ ¬ EndsWithSpace p := by
  constructor
  · intro h
    exact ⟨(cleanRel_ok h).2.2.2, cleanRel_self_trim h⟩
  · rintro ⟨hp, hstart, hend⟩
    exact cleanRel_self hp hstart hend

private theorem dotted_no_space (p : Bytes) :
    ¬ StartsWithSpace (dot ++ slash :: (p ++ slash :: dot)) ∧
      ¬ EndsWithSpace (dot ++ slash :: (p ++ slash :: dot)) := by
  constructor
  · rintro ⟨w, hw, hprefix⟩
    have hhead : ∀ w ∈ whiteSpace, w.head? ≠ some 46 ∧ w ≠ [] := by decide
    obtain ⟨b, rest, rfl⟩ := List.exists_cons_of_ne_nil (hhead w hw).2
    obtain ⟨t, ht⟩ := hprefix
    have hb : b = 46 := by
      simp only [dot, ascii, List.cons_append] at ht
      exact (List.cons.inj ht).1
    exact (hhead _ hw).1 (by simp [hb])
  · rintro ⟨w, hw, t, ht⟩
    have hlast : ∀ w ∈ whiteSpace, w.getLast? ≠ some 46 ∧ w ≠ [] := by decide
    have heq := congrArg List.getLast? ht
    rw [List.getLast?_append_of_ne_nil _ (hlast w hw).2] at heq
    refine (hlast w hw).1 (heq.trans ?_)
    have hshape : dot ++ slash :: (p ++ slash :: dot) = (dot ++ slash :: p ++ [slash]) ++ [46] := by
      simp [dot, ascii]
    rw [hshape, List.getLast?_concat]

/-- Every clean path is what CleanRel returns for some string. -/
theorem exists_cleanRel_eq {p : Bytes} (hp : CleanPath p) : ∃ s, cleanRel s = .ok p := by
  obtain ⟨hstart, hend⟩ := dotted_no_space p
  refine ⟨dot ++ slash :: (p ++ slash :: dot), ?_⟩
  have htrim : trimSpace (dot ++ slash :: (p ++ slash :: dot)) =
      dot ++ slash :: (p ++ slash :: dot) := by
    rcases trimSpace_cases (dot ++ slash :: (p ++ slash :: dot)) with ⟨_, _, h⟩ | ⟨h, _⟩
    · exact h
    · exact absurd h (by simp [hstart, hend])
  apply cleanRel_eq_ok _ hp
  · rw [htrim]
    simp
  · rw [htrim]
    simp [dot, ascii, slash]
  · rw [htrim]
    exact clean_dotted hp.isElement

def absPath (dirs : List Bytes) : Bytes := slash :: joinPath dirs

theorem elements_absPath {dirs : List Bytes} (h : ∀ e ∈ dirs, IsElement e) :
    elements (absPath dirs) = [] :: (if dirs = [] then [[]] else dirs) := by
  rw [absPath, elements_cons_slash]
  by_cases hnil : dirs = []
  · subst hnil
    rfl
  · rw [if_neg hnil, elements_joinPath (fun e he => (h e he).2.1) hnil]

theorem clean_absPath {dirs : List Bytes} (h : ∀ e ∈ dirs, IsElement e) :
    clean (absPath dirs) = absPath dirs := by
  have hstack : cleanStack true (absPath dirs) = dirs.reverse := by
    rw [cleanStack, elements_absPath h]
    by_cases hnil : dirs = []
    · simp [hnil, cleanStep]
    · have hskip : cleanStep true [] [] = [] := by simp [cleanStep]
      rw [if_neg hnil, List.foldl_cons, hskip, foldl_cleanStep true _ _ h, List.append_nil]
  rw [clean, if_neg (by simp [absPath]), if_pos (by simp [absPath]), hstack, List.reverse_reverse]
  rfl

theorem join_absPath {dirs es : List Bytes} (h : ∀ e ∈ dirs, IsElement e)
    (hes : ∀ e ∈ es, IsElement e) (hne : es ≠ []) :
    join (absPath dirs) (joinPath es) = absPath (dirs ++ es) := by
  have hstack : cleanStack true (absPath dirs ++ slash :: joinPath es) = (dirs ++ es).reverse := by
    rw [cleanStack, elements_append, elements_absPath h,
      elements_joinPath (fun e he => (hes e he).2.1) hne, List.foldl_append]
    have hskip : cleanStep true [] [] = [] := by simp [cleanStep]
    by_cases hnil : dirs = []
    · subst hnil
      rw [if_pos rfl, List.foldl_cons, hskip, List.foldl_cons, hskip, List.foldl_nil,
        foldl_cleanStep true _ _ hes, List.nil_append, List.append_nil]
    · rw [if_neg hnil, List.foldl_cons, hskip, foldl_cleanStep true _ _ h,
        foldl_cleanStep true _ _ hes, List.append_nil, List.reverse_append]
  rw [join, clean, if_neg (by simp [absPath]), if_pos (by simp [absPath]), hstack,
    List.reverse_reverse]
  rfl

theorem relElements_absPath {dirs : List Bytes} (h : ∀ e ∈ dirs, IsElement e) :
    relElements (absPath dirs) = [] :: dirs := by
  have hdot : absPath dirs ≠ dot := by simp [absPath, dot, ascii, slash]
  rw [relElements, if_neg hdot]
  by_cases hnil : dirs = []
  · subst hnil
    rfl
  · have hroot : absPath dirs ≠ [slash] := by
      intro heq
      have hempty : joinPath dirs = [] := (List.cons.inj heq).2
      have hlen := joinPath_length dirs hnil
      obtain ⟨e, rest, rfl⟩ := List.exists_cons_of_ne_nil hnil
      have hpos := List.length_pos_iff.mpr (h e (by simp)).1
      rw [hempty, span_cons] at hlen
      simp only [List.length_nil] at hlen
      omega
    rw [if_neg hroot, elements_absPath h, if_neg hnil]

theorem stripCommon_append (base es : List Bytes) :
    stripCommon base (base ++ es) = ([], es) := by
  induction base with
  | nil => cases es <;> rfl
  | cons b rest ih => simp [stripCommon, ih]

/-- Rel between cleaned paths, one of which continues the other. -/
theorem rel_continued {base targ p : Bytes} {names : List Bytes}
    (hroot : (clean base).head? = some slash ↔ (clean targ).head? = some slash)
    (hbase : relElements (clean base) = names)
    (htarg : relElements (clean targ) = names ++ elements p) : rel base targ = some p := by
  have hne : clean targ ≠ clean base := by
    intro heq
    rw [heq, hbase] at htarg
    exact elements_ne_nil p (List.self_eq_append_right.mp htarg)
  rw [rel]
  simp only
  rw [if_neg hne, if_neg (not_not.mpr (propext hroot)), hbase, htarg, stripCommon_append]
  simp [joinPath_elements]

/-- The second check of relPath passes where Rel leads back to the path CleanRel returned. -/
theorem relPath_of_rel {dir s : Bytes}
    (h : ∀ p, CleanPath p → rel dir (join dir p) = some p) : relPath dir s = cleanRel s := by
  unfold relPath
  cases hclean : cleanRel s with
  | error e => rfl
  | ok p =>
    have hp := (cleanRel_ok hclean).2.2.2
    simp only [h p hp, hp.isLocal, if_true]

theorem relPath_eq_cleanRel {dirs : List Bytes} (h : ∀ e ∈ dirs, IsElement e) (s : Bytes) :
    relPath (absPath dirs) s = cleanRel s := by
  refine relPath_of_rel fun p hp => ?_
  have hall : ∀ e ∈ dirs ++ elements p, IsElement e :=
    List.forall_mem_append.mpr ⟨h, hp.isElement⟩
  have hjoin := join_absPath h hp.isElement (elements_ne_nil p)
  rw [joinPath_elements] at hjoin
  rw [hjoin]
  refine rel_continued ?_ (?_ : _ = [] :: dirs) ?_
  · rw [clean_absPath h, clean_absPath hall]
    exact Iff.rfl
  · rw [clean_absPath h, relElements_absPath h]
  · rw [clean_absPath hall, relElements_absPath hall]
    rfl

example : cleanRel (ascii "foo/../bar//x") = .ok (ascii "bar/x") := by decide +kernel

end TailSync.RelativePaths
