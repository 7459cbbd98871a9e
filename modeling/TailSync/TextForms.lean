import TailSync.RelativePaths

/-!
What the text functions behind path validation compute. TrimSpace removes white-space
runes from both ends and leaves a string with none there, whatever order they are
removed in; ValidString accepts exactly the concatenations of encoded code points.
-/
namespace TailSync.TextForms

open ByteStrings RelativePaths

section Codes
variable {α : Type*} {code : List (List α)} {l l' : List (List α)} {u u' : List α}

/-- What is left in front of which no word of a prefix-free code stands does not depend on
the words removed. -/
theorem strip_left_unique (hfree : ∀ v ∈ code, ∀ w ∈ code, v <+: w → v = w)
    (hl : ∀ w ∈ l, w ∈ code) (hl' : ∀ w ∈ l', w ∈ code)
    (hu : ∀ w ∈ code, ¬ w <+: u) (hu' : ∀ w ∈ code, ¬ w <+: u')
    (h : l.flatten ++ u = l'.flatten ++ u') : u = u' := by
  induction l generalizing l' with
  | nil =>
    cases l' with
    | nil => exact h
    | cons w l' =>
      rw [List.flatten_cons, List.append_assoc] at h
      exact absurd ⟨_, h.symm⟩ (hu w (hl' w List.mem_cons_self))
  | cons v l ih =>
    rw [List.flatten_cons, List.append_assoc] at h
    cases l' with
    | nil => exact absurd ⟨_, h⟩ (hu' v (hl v List.mem_cons_self))
    | cons w l' =>
      rw [List.flatten_cons, List.append_assoc] at h
      have hv := hl v List.mem_cons_self
      have hw := hl' w List.mem_cons_self
      have hvw : v = w := by
        rcases List.prefix_or_prefix_of_prefix ⟨_, rfl⟩ ⟨_, h.symm⟩ with hpre | hpre
        · exact hfree v hv w hw hpre
        · exact (hfree w hw v hv hpre).symm
      subst hvw
      exact ih (fun w hw => hl w (List.mem_cons_of_mem _ hw))
        (fun w hw => hl' w (List.mem_cons_of_mem _ hw)) (List.append_cancel_left h)

theorem strip_right_unique (hfree : ∀ v ∈ code, ∀ w ∈ code, v <:+ w → v = w)
    (hl : ∀ w ∈ l, w ∈ code) (hl' : ∀ w ∈ l', w ∈ code)
    (hu : ∀ w ∈ code, ¬ w <:+ u) (hu' : ∀ w ∈ code, ¬ w <:+ u')
    (h : u ++ l.flatten = u' ++ l'.flatten) : u = u' := by
  have hrev : ∀ m : List (List α), (∀ w ∈ m, w ∈ code) →
      ∀ w ∈ (m.map List.reverse).reverse, w ∈ code.map List.reverse := by
    intro m hm w hw
    obtain ⟨v, hv, rfl⟩ := List.mem_map.mp (List.mem_reverse.mp hw)
    exact List.mem_map_of_mem (hm v hv)
  have hnot : ∀ t : List α, (∀ w ∈ code, ¬ w <:+ t) →
      ∀ w ∈ code.map List.reverse, ¬ w <+: t.reverse := by
    intro t ht w hw
    obtain ⟨v, hv, rfl⟩ := List.mem_map.mp hw
    rw [List.reverse_prefix]
    exact ht v hv
  refine List.reverse_injective (strip_left_unique ?_ (hrev l hl) (hrev l' hl') (hnot u hu)
    (hnot u' hu') ?_)
  · intro v' hv' w' hw' hpre
    obtain ⟨v, hv, rfl⟩ := List.mem_map.mp hv'
    obtain ⟨w, hw, rfl⟩ := List.mem_map.mp hw'
    rw [hfree v hv w hw (List.reverse_prefix.mp hpre)]
  · rw [← List.reverse_flatten, ← List.reverse_flatten, ← List.reverse_append, h,
      List.reverse_append]

end Codes

def spaces : List Char :=
  [0x09, 0x0A, 0x0B, 0x0C, 0x0D, 0x20, 0x85, 0xA0, 0x1680, 0x2000, 0x2001, 0x2002, 0x2003, 0x2004,
    0x2005, 0x2006, 0x2007, 0x2008, 0x2009, 0x200A, 0x2028, 0x2029, 0x202F, 0x205F, 0x3000].map
    Char.ofNat

def Blank (s : Bytes) : Prop :=
  ∃ l : List Char, (∀ c ∈ l, c ∈ spaces) ∧ s = l.flatMap String.utf8EncodeChar

def Trimmed (s t : Bytes) : Prop :=
  ∃ l r, Blank l ∧ Blank r ∧ s = l ++ t ++ r ∧ ¬ StartsWithSpace t ∧ ¬ EndsWithSpace t

theorem whiteSpace_eq : whiteSpace = spaces.map String.utf8EncodeChar := by decide

theorem whiteSpace_free :
    (∀ v ∈ whiteSpace, ∀ w ∈ whiteSpace, v <+: w → v = w) ∧
      ∀ v ∈ whiteSpace, ∀ w ∈ whiteSpace, v <:+ w → v = w := by
  decide +kernel

/-- The first byte of a white-space rune is never a later byte of one. -/
theorem whiteSpace_head : ∀ v ∈ whiteSpace, ∀ w ∈ whiteSpace, ∀ b ∈ v.head?, b ∉ w.tail := by
  decide +kernel

theorem Blank.append {s t : Bytes} (hs : Blank s) (ht : Blank t) : Blank (s ++ t) := by
  obtain ⟨l, hl, rfl⟩ := hs
  obtain ⟨r, hr, rfl⟩ := ht
  exact ⟨l ++ r, List.forall_mem_append.mpr ⟨hl, hr⟩, List.flatMap_append.symm⟩

theorem Blank.of_words {l : List Bytes} (hl : ∀ w ∈ l, w ∈ whiteSpace) : Blank l.flatten := by
  induction l with
  | nil => exact ⟨[], by simp, rfl⟩
  | cons w l ih =>
    obtain ⟨hw, hrest⟩ := List.forall_mem_cons.mp hl
    rw [whiteSpace_eq] at hw
    obtain ⟨c, hc, rfl⟩ := List.mem_map.mp hw
    have hfirst : Blank (String.utf8EncodeChar c) := ⟨[c], by simpa using hc, by simp⟩
    exact hfirst.append (ih hrest)

theorem Blank.words {s : Bytes} (h : Blank s) :
    ∃ l : List Bytes, (∀ w ∈ l, w ∈ whiteSpace) ∧ s = l.flatten := by
  obtain ⟨l, hl, rfl⟩ := h
  refine ⟨l.map String.utf8EncodeChar, ?_, List.flatMap_def⟩
  intro w hw
  obtain ⟨c, hc, rfl⟩ := List.mem_map.mp hw
  rw [whiteSpace_eq]
  exact List.mem_map_of_mem (hl c hc)

theorem blank_left_unique {l l' u u' : Bytes} (hl : Blank l) (hl' : Blank l')
    (hu : ¬ StartsWithSpace u) (hu' : ¬ StartsWithSpace u') (h : l ++ u = l' ++ u') : u = u' := by
  obtain ⟨ws, hws, rfl⟩ := hl.words
  obtain ⟨ws', hws', rfl⟩ := hl'.words
  exact strip_left_unique whiteSpace_free.1 hws hws' (fun w hw hpre => hu ⟨w, hw, hpre⟩)
    (fun w hw hpre => hu' ⟨w, hw, hpre⟩) h

theorem blank_right_unique {r r' u u' : Bytes} (hr : Blank r) (hr' : Blank r')
    (hu : ¬ EndsWithSpace u) (hu' : ¬ EndsWithSpace u') (h : u ++ r = u' ++ r') : u = u' := by
  obtain ⟨ws, hws, rfl⟩ := hr.words
  obtain ⟨ws', hws', rfl⟩ := hr'.words
  exact strip_right_unique whiteSpace_free.2 hws hws' (fun w hw hsuf => hu ⟨w, hw, hsuf⟩)
    (fun w hw hsuf => hu' ⟨w, hw, hsuf⟩) h

/-- White space begins with the first byte of a rune. -/
theorem exists_head_of_leading {l : List Bytes} (hl : ∀ w ∈ l, w ∈ whiteSpace) {b : UInt8}
    {u : Bytes} (h : b :: u <+: l.flatten) : ∃ v ∈ l, b ∈ v.head? := by
  cases l with
  | nil => simp at h
  | cons v l =>
    refine ⟨v, List.mem_cons_self, ?_⟩
    have hpos := whiteSpace_length_pos v (hl v List.mem_cons_self)
    obtain ⟨c, v, rfl⟩ := List.exists_cons_of_ne_nil (List.ne_nil_of_length_pos hpos)
    rw [List.flatten_cons, List.cons_append, List.cons_prefix_cons] at h
    rw [h.1]
    rfl

/-- White space behind a non-empty string does not complete a rune begun in it. -/
theorem not_startsWithSpace_append {t r : Bytes} (ht : t ≠ []) (hstart : ¬ StartsWithSpace t)
    (hr : Blank r) : ¬ StartsWithSpace (t ++ r) := by
  rintro ⟨w, hw, hpre⟩
  rcases List.prefix_or_prefix_of_prefix hpre (List.prefix_append t r) with h | ⟨u, rfl⟩
  · exact hstart ⟨w, hw, h⟩
  obtain ⟨a, t, rfl⟩ := List.exists_cons_of_ne_nil ht
  obtain ⟨l, hl, rfl⟩ := hr.words
  have hu : u <+: l.flatten := (List.prefix_append_right_inj _).mp hpre
  cases u with
  | nil => exact hstart ⟨_, hw, by rw [List.append_nil]⟩
  | cons b u =>
    -- The byte after the beginning would be the first one of another rune.
    obtain ⟨v, hv, hb⟩ := exists_head_of_leading hl hu
    refine whiteSpace_head v (hl v hv) _ hw b hb ?_
    simp

/-- The white space in front can be removed first; if nothing else is there, all of it. -/
theorem Trimmed.left {s t : Bytes} (h : Trimmed s t) :
    ∃ l r, Blank l ∧ Blank r ∧ s = l ++ (t ++ r) ∧ ¬ StartsWithSpace (t ++ r) := by
  obtain ⟨l, r, hl, hr, rfl, hstart, _⟩ := h
  by_cases hnil : t = []
  · subst hnil
    refine ⟨l ++ r, [], hl.append hr, ⟨[], by simp, rfl⟩, ?_, hstart⟩
    simp only [List.append_nil]
  · exact ⟨l, r, hl, hr, List.append_assoc l t r, not_startsWithSpace_append hnil hstart hr⟩

theorem trimmed_unique {s t t' : Bytes} (h : Trimmed s t) (h' : Trimmed s t') : t = t' := by
  obtain ⟨l, r, hl, hr, hs, hstart⟩ := h.left
  obtain ⟨l', r', hl', hr', hs', hstart'⟩ := h'.left
  have hrest : t ++ r = t' ++ r' := blank_left_unique hl hl' hstart hstart' (hs.symm.trans hs')
  obtain ⟨_, _, _, _, _, _, hend⟩ := h
  obtain ⟨_, _, _, _, _, _, hend'⟩ := h'
  exact blank_right_unique hr hr' hend hend' hrest

/-- Exactly one string is left when white space is removed, and TrimSpace returns it. -/
theorem trimmed_iff {s t : Bytes} : Trimmed s t ↔ t = trimSpace s := by
  obtain ⟨l, r, hl, hr, hs, hstart, hend⟩ := trimSpace_spec s
  have htrim : Trimmed s (trimSpace s) :=
    ⟨l.flatten, r.flatten, .of_words hl, .of_words hr, hs, hstart, hend⟩
  constructor
  · exact fun h => trimmed_unique h htrim
  · rintro rfl
    exact htrim

def Utf8 (s : Bytes) : Prop := ∃ cs : List Char, s = cs.flatMap String.utf8EncodeChar

section Ranges
variable {a : UInt8}

/-- The table in terms of the byte's value. -/
theorem acceptRanges_toNat : acceptRanges a =
    if a.toNat < 128 then some []
    else if a.toNat < 194 then none
    else if a.toNat < 224 then some [(0x80, 0xBF)]
    else if a.toNat = 224 then some [(0xA0, 0xBF), (0x80, 0xBF)]
    else if a.toNat = 237 then some [(0x80, 0x9F), (0x80, 0xBF)]
    else if a.toNat < 240 then some [(0x80, 0xBF), (0x80, 0xBF)]
    else if a.toNat = 240 then some [(0x90, 0xBF), (0x80, 0xBF), (0x80, 0xBF)]
    else if a.toNat < 244 then some [(0x80, 0xBF), (0x80, 0xBF), (0x80, 0xBF)]
    else if a.toNat = 244 then some [(0x80, 0x8F), (0x80, 0xBF), (0x80, 0xBF)]
    else none := by
  simp only [acceptRanges, UInt8.lt_iff_toNat_lt, ← UInt8.toNat_inj, UInt8.reduceToNat]

theorem acceptRanges_one (h : a.toNat < 128) : acceptRanges a = some [] := by
  rw [acceptRanges_toNat, if_pos h]

theorem acceptRanges_two (h : 194 ≤ a.toNat) (h' : a.toNat < 224) :
    acceptRanges a = some [(0x80, 0xBF)] := by
  rw [acceptRanges_toNat, if_neg (by omega), if_neg (by omega), if_pos h']

theorem acceptRanges_three (h : 224 ≤ a.toNat) (h' : a.toNat < 240) :
    acceptRanges a = some [(if a.toNat = 224 then 0xA0 else 0x80,
      if a.toNat = 237 then 0x9F else 0xBF), (0x80, 0xBF)] := by
  rw [acceptRanges_toNat, if_neg (by omega), if_neg (by omega), if_neg (by omega)]
  by_cases hlow : a.toNat = 224
  · rw [if_pos hlow, if_pos hlow, if_neg (by omega)]
  by_cases hhigh : a.toNat = 237
  · rw [if_neg hlow, if_pos hhigh, if_neg hlow, if_pos hhigh]
  · rw [if_neg hlow, if_neg hhigh, if_pos h', if_neg hlow, if_neg hhigh]

theorem acceptRanges_four (h : 240 ≤ a.toNat) (h' : a.toNat ≤ 244) :
    acceptRanges a = some [(if a.toNat = 240 then 0x90 else 0x80,
      if a.toNat = 244 then 0x8F else 0xBF), (0x80, 0xBF), (0x80, 0xBF)] := by
  rw [acceptRanges_toNat, if_neg (by omega), if_neg (by omega), if_neg (by omega),
    if_neg (by omega), if_neg (by omega), if_neg (by omega)]
  by_cases hlow : a.toNat = 240
  · rw [if_pos hlow, if_pos hlow, if_neg (by omega)]
  by_cases hhigh : a.toNat = 244
  · rw [if_neg hlow, if_neg (by omega), if_pos hhigh, if_neg hlow, if_pos hhigh]
  · rw [if_neg hlow, if_pos (by omega), if_neg hlow, if_neg hhigh]

theorem acceptRanges_none (h : 128 ≤ a.toNat ∧ a.toNat < 194 ∨ 244 < a.toNat) :
    acceptRanges a = none := by
  rw [acceptRanges_toNat, if_neg (by omega)]
  rcases h with h | h
  · rw [if_pos h.2]
  · rw [if_neg (by omega), if_neg (by omega), if_neg (by omega), if_neg (by omega),
      if_neg (by omega), if_neg (by omega), if_neg (by omega), if_neg (by omega)]

theorem validFrom_lead {ranges : List (UInt8 × UInt8)} (h : acceptRanges a = some ranges)
    (s : Bytes) : validFrom [] (a :: s) = validFrom ranges s := by
  rw [validFrom, h]

theorem validFrom_range {lo hi : UInt8} {pending : List (UInt8 × UInt8)} {s : Bytes} :
    validFrom ((lo, hi) :: pending) s = true ↔
      ∃ b rest, s = b :: rest ∧ lo.toNat ≤ b.toNat ∧ b.toNat ≤ hi.toNat ∧
        validFrom pending rest = true := by
  cases s with
  | nil => simp [validFrom]
  | cons b rest =>
    simp only [validFrom, Bool.and_eq_true, decide_eq_true_eq, UInt8.le_iff_toNat_le, and_assoc]
    constructor
    · rintro ⟨hlo, hhi, hrest⟩
      exact ⟨b, rest, rfl, hlo, hhi, hrest⟩
    · rintro ⟨b', rest', h, hlo, hhi, hrest⟩
      obtain ⟨rfl, rfl⟩ := List.cons.inj h
      exact ⟨hlo, hhi, hrest⟩

end Ranges

inductive Encoding : Bytes → Prop
  | one {a : UInt8} (lead : a.toNat < 128) : Encoding [a]
  | two {a b : UInt8} (lead : 194 ≤ a.toNat ∧ a.toNat < 224)
      (next : 128 ≤ b.toNat ∧ b.toNat ≤ 191) : Encoding [a, b]
  | three {a b c : UInt8} (lead : 224 ≤ a.toNat ∧ a.toNat < 240)
      (second : (if a.toNat = 224 then 160 else 128) ≤ b.toNat ∧
        b.toNat ≤ if a.toNat = 237 then 159 else 191)
      (next : 128 ≤ c.toNat ∧ c.toNat ≤ 191) : Encoding [a, b, c]
  | four {a b c d : UInt8} (lead : 240 ≤ a.toNat ∧ a.toNat ≤ 244)
      (second : (if a.toNat = 240 then 144 else 128) ≤ b.toNat ∧
        b.toNat ≤ if a.toNat = 244 then 143 else 191)
      (next : 128 ≤ c.toNat ∧ c.toNat ≤ 191) (last : 128 ≤ d.toNat ∧ d.toNat ≤ 191) :
      Encoding [a, b, c, d]

theorem Encoding.validFrom {w : Bytes} (h : Encoding w) (s : Bytes) (hs : validFrom [] s = true) :
    RelativePaths.validFrom [] (w ++ s) = true := by
  cases h with
  | one lead =>
    rw [List.cons_append, validFrom_lead (acceptRanges_one lead)]
    exact hs
  | two lead next =>
    rw [List.cons_append, validFrom_lead (acceptRanges_two lead.1 lead.2), validFrom_range]
    exact ⟨_, _, rfl, next.1, next.2, hs⟩
  | three lead second next =>
    rw [List.cons_append, validFrom_lead (acceptRanges_three lead.1 lead.2), validFrom_range,
      apply_ite UInt8.toNat, apply_ite UInt8.toNat]
    exact ⟨_, _, rfl, second.1, second.2, validFrom_range.mpr ⟨_, _, rfl, next.1, next.2, hs⟩⟩
  | four lead second next last =>
    rw [List.cons_append, validFrom_lead (acceptRanges_four lead.1 lead.2), validFrom_range,
      apply_ite UInt8.toNat, apply_ite UInt8.toNat]
    exact ⟨_, _, rfl, second.1, second.2, validFrom_range.mpr ⟨_, _, rfl, next.1, next.2,
      validFrom_range.mpr ⟨_, _, rfl, last.1, last.2, hs⟩⟩⟩

theorem exists_encoding {a : UInt8} {s : Bytes} (h : validFrom [] (a :: s) = true) :
    ∃ w t, Encoding w ∧ a :: s = w ++ t ∧ validFrom [] t = true := by
  rcases Nat.lt_or_ge a.toNat 128 with h1 | h1
  · rw [validFrom_lead (acceptRanges_one h1)] at h
    exact ⟨[a], s, .one h1, rfl, h⟩
  rcases Nat.lt_or_ge a.toNat 194 with h2 | h2
  · simp [validFrom, acceptRanges_none (Or.inl ⟨h1, h2⟩)] at h
  rcases Nat.lt_or_ge a.toNat 224 with h3 | h3
  · rw [validFrom_lead (acceptRanges_two h2 h3), validFrom_range] at h
    obtain ⟨b, t, rfl, hlo, hhi, ht⟩ := h
    exact ⟨[a, b], t, .two ⟨h2, h3⟩ ⟨hlo, hhi⟩, rfl, ht⟩
  rcases Nat.lt_or_ge a.toNat 240 with h4 | h4
  · rw [validFrom_lead (acceptRanges_three h3 h4), validFrom_range, apply_ite UInt8.toNat,
      apply_ite UInt8.toNat] at h
    obtain ⟨b, t, rfl, hlo, hhi, ht⟩ := h
    obtain ⟨c, t, rfl, hlo', hhi', ht⟩ := validFrom_range.mp ht
    exact ⟨[a, b, c], t, .three ⟨h3, h4⟩ ⟨hlo, hhi⟩ ⟨hlo', hhi'⟩, rfl, ht⟩
  rcases Nat.lt_or_ge 244 a.toNat with h5 | h5
  · simp [validFrom, acceptRanges_none (Or.inr h5)] at h
  · rw [validFrom_lead (acceptRanges_four h4 h5), validFrom_range, apply_ite UInt8.toNat,
      apply_ite UInt8.toNat] at h
    obtain ⟨b, t, rfl, hlo, hhi, ht⟩ := h
    obtain ⟨c, t, rfl, hlo', hhi', ht⟩ := validFrom_range.mp ht
    obtain ⟨d, t, rfl, hlo'', hhi'', ht⟩ := validFrom_range.mp ht
    exact ⟨[a, b, c, d], t, .four ⟨h4, h5⟩ ⟨hlo, hhi⟩ ⟨hlo', hhi'⟩ ⟨hlo'', hhi''⟩, rfl, ht⟩

theorem encoding_char (c : Char) : Encoding (String.utf8EncodeChar c) := by
  have hvalid : c.val.toNat.isValidChar := c.valid
  unfold Nat.isValidChar at hvalid
  unfold String.utf8EncodeChar
  generalize c.val.toNat = v at hvalid
  dsimp only
  split_ifs with h1 h2 h3
  · exact .one (by rw [UInt8.toNat_ofNat']; omega)
  · exact .two (by rw [UInt8.toNat_ofNat']; omega) (by rw [UInt8.toNat_ofNat']; omega)
  · exact .three (by simp only [UInt8.toNat_ofNat']; omega)
      (by simp only [UInt8.toNat_ofNat']; constructor <;> split_ifs <;> omega)
      (by simp only [UInt8.toNat_ofNat']; omega)
  · exact .four (by simp only [UInt8.toNat_ofNat']; omega)
      (by simp only [UInt8.toNat_ofNat']; constructor <;> split_ifs <;> omega)
      (by simp only [UInt8.toNat_ofNat']; omega) (by simp only [UInt8.toNat_ofNat']; omega)

theorem exists_char {v : ℕ} (h : v.isValidChar) : ∃ c : Char, c.val.toNat = v :=
  ⟨Char.ofNatAux v h, rfl⟩

theorem eq_ofNat {b : UInt8} {n : ℕ} (h : n = b.toNat) : b = UInt8.ofNat n := by
  rw [h, UInt8.ofNat_toNat]

/-- The code point is put together from the low bits of the bytes. -/
theorem Encoding.exists_char {w : Bytes} (h : Encoding w) :
    ∃ c : Char, w = String.utf8EncodeChar c := by
  cases h with
  | @one a lead =>
    obtain ⟨c, hc⟩ := TextForms.exists_char (v := a.toNat) (by unfold Nat.isValidChar; omega)
    refine ⟨c, ?_⟩
    simp only [String.utf8EncodeChar, hc]
    rw [if_pos (by omega), ← eq_ofNat rfl]
  | @two a b lead next =>
    obtain ⟨c, hc⟩ := TextForms.exists_char (v := (a.toNat - 192) * 64 + (b.toNat - 128))
      (by unfold Nat.isValidChar; omega)
    refine ⟨c, ?_⟩
    simp only [String.utf8EncodeChar, hc]
    rw [if_neg (by omega), if_pos (by omega), ← eq_ofNat (b := a) (by omega),
      ← eq_ofNat (b := b) (by omega)]
  | @three a b d lead second next =>
    obtain ⟨hlo, hhi⟩ := second
    have hb : 128 ≤ b.toNat ∧ b.toNat ≤ 191 := by split_ifs at hlo hhi <;> omega
    obtain ⟨c, hc⟩ := TextForms.exists_char
      (v := (a.toNat - 224) * 4096 + (b.toNat - 128) * 64 + (d.toNat - 128))
      (by unfold Nat.isValidChar; split_ifs at hlo hhi <;> omega)
    have hlong : ¬ (a.toNat - 224) * 4096 + (b.toNat - 128) * 64 + (d.toNat - 128) ≤ 2047 := by
      split_ifs at hlo <;> omega
    refine ⟨c, ?_⟩
    simp only [String.utf8EncodeChar, hc]
    rw [if_neg (by omega), if_neg hlong, if_pos (by omega), ← eq_ofNat (b := a) (by omega),
      ← eq_ofNat (b := b) (by omega), ← eq_ofNat (b := d) (by omega)]
  | @four a b d e lead second next last =>
    obtain ⟨hlo, hhi⟩ := second
    have hb : 128 ≤ b.toNat ∧ b.toNat ≤ 191 := by split_ifs at hlo hhi <;> omega
    obtain ⟨c, hc⟩ := TextForms.exists_char
      (v := (a.toNat - 240) * 262144 + (b.toNat - 128) * 4096 + (d.toNat - 128) * 64 +
        (e.toNat - 128))
      (by unfold Nat.isValidChar; split_ifs at hlo hhi <;> omega)
    have hlong : ¬ (a.toNat - 240) * 262144 + (b.toNat - 128) * 4096 + (d.toNat - 128) * 64 +
        (e.toNat - 128) ≤ 65535 := by
      split_ifs at hlo <;> omega
    refine ⟨c, ?_⟩
    simp only [String.utf8EncodeChar, hc]
    rw [if_neg (by omega), if_neg (by omega), if_neg hlong, ← eq_ofNat (b := a) (by omega),
      ← eq_ofNat (b := b) (by omega), ← eq_ofNat (b := d) (by omega),
      ← eq_ofNat (b := e) (by omega)]

theorem Encoding.length_pos {w : Bytes} (h : Encoding w) : 0 < w.length := by
  cases h <;> exact Nat.succ_pos _

/-- ValidString accepts exactly the encodings. -/
theorem validString_iff {s : Bytes} : validString s = true ↔ Utf8 s := by
  constructor
  · intro h
    induction hn : s.length using Nat.strong_induction_on generalizing s with
    | _ n ih =>
      cases s with
      | nil => exact ⟨[], rfl⟩
      | cons a s =>
        obtain ⟨w, t, hw, heq, ht⟩ := exists_encoding h
        have hlt : t.length < n := by
          rw [← hn, heq, List.length_append]
          exact Nat.lt_add_of_pos_left hw.length_pos
        obtain ⟨c, rfl⟩ := hw.exists_char
        obtain ⟨cs, rfl⟩ := ih t.length hlt ht rfl
        exact ⟨c :: cs, heq⟩
  · rintro ⟨cs, rfl⟩
    induction cs with
    | nil => rfl
    | cons c cs ih =>
      rw [List.flatMap_cons]
      exact (encoding_char c).validFrom _ ih

end TailSync.TextForms
