import TailSync.PathReductions
import TailSync.TextForms

/-!
Which paths CleanRel accepts. Clean on a relative path is the pass that finds the lexical
normal form, so CleanRel accepts a string exactly when what is left of it after trimming
has a normal form of named, unreserved components; joined to the sync directory such a
path stays strictly below it, and the second check of relPath never fails.
-/
namespace TailSync.SafePaths

open ByteStrings RelativePaths PathReductions TextForms

def Skipped (e : Bytes) : Prop := e = [] ∨ e = dot

instance (e : Bytes) : Decidable (Skipped e) := by
  unfold Skipped
  infer_instance

def Reserved (e : Bytes) : Prop := e = ascii ".tailsync" ∨ ascii ".tailsync-" <+: e

theorem isReservedComponent_eq_false {e : Bytes} :
    isReservedComponent e = false ↔ ¬ Reserved e := by
  simp [isReservedComponent, Reserved, ← Bool.not_eq_true]

theorem not_skipped_dotdot : ¬ Skipped dotdot := by decide

theorem cleanStep_push : cleanStep false = push Skipped dotdot := by
  funext stack e
  cases stack <;> rfl

def names (q : Bytes) : List Bytes := normalized Skipped dotdot (elements q)

theorem names_eq (q : Bytes) : names q = (cleanStack false q).reverse := by
  rw [cleanStack, cleanStep_push, names, normalized]

theorem names_terminal (q : Bytes) : Terminal Skipped dotdot (names q) :=
  normalized_terminal not_skipped_dotdot (elements q)

theorem normalForm_names {q : Bytes} {nf : List Bytes} :
    NormalForm Skipped dotdot (elements q) nf ↔ nf = names q :=
  normalForm_iff not_skipped_dotdot

theorem names_slash {q e : Bytes} (he : e ∈ names q) : slash ∉ e :=
  slash_notMem_element q e ((normalForm_names.mpr rfl).sublist.subset he)

theorem elements_joinPath_names {q : Bytes} (h : names q ≠ []) :
    elements (joinPath (names q)) = names q :=
  elements_joinPath (fun _ he => names_slash he) h

/-- The names do not join to a path with a skipped component. -/
theorem joinPath_names_ne {q path e : Bytes} (h : names q ≠ []) (he : e ∈ elements path)
    (hskip : Skipped e) : joinPath (names q) ≠ path := by
  rintro rfl
  rw [elements_joinPath_names h] at he
  exact (names_terminal q).not_blank he hskip

theorem head_joinPath_names {q : Bytes} (h : names q ≠ []) :
    (joinPath (names q)).head? ≠ some slash := by
  intro hhead
  obtain ⟨rest, heq⟩ := List.head?_eq_some_iff.mp hhead
  refine joinPath_names_ne h ?_ (Or.inl rfl) heq
  rw [elements_cons_slash]
  exact List.mem_cons_self

theorem clean_relative {q : Bytes} (hnil : q ≠ []) (hhead : q.head? ≠ some slash) :
    clean q = if names q = [] then dot else joinPath (names q) := by
  rw [clean, if_neg hnil, if_neg hhead, names_eq]
  simp only [List.reverse_eq_nil_iff]

theorem names_joinPath_names {q : Bytes} (h : names q ≠ []) :
    names (joinPath (names q)) = names q := by
  rw [names, elements_joinPath_names h, normalized,
    (names_terminal q).foldl_push not_skipped_dotdot, List.reverse_reverse]

theorem clean_rooted {q : Bytes} (hhead : q.head? = some slash) :
    clean q = absPath (cleanStack true q).reverse := by
  have hnil : q ≠ [] := by
    rintro rfl
    cases hhead
  rw [clean, if_neg hnil, if_pos hhead]
  rfl

theorem cleanStep_rooted {stack : List Bytes} (hstack : ∀ x ∈ stack, IsElement x) {e : Bytes}
    (he : slash ∉ e) : ∀ x ∈ cleanStep true stack e, IsElement x := by
  unfold cleanStep
  by_cases hskip : e = [] ∨ e = dot
  · rw [if_pos hskip]
    exact hstack
  rw [if_neg hskip]
  by_cases hup : e = dotdot
  · rw [if_pos hup]
    cases stack with
    | nil => simp
    | cons top below =>
      obtain ⟨htop, hbelow⟩ := List.forall_mem_cons.mp hstack
      simp only [if_neg htop.2.2.2]
      exact hbelow
  · rw [if_neg hup]
    obtain ⟨hnil, hdot⟩ := not_or.mp hskip
    exact List.forall_mem_cons.mpr ⟨⟨hnil, he, hdot, hup⟩, hstack⟩

/-- Dot-dots directly below the root are dropped, so a rooted path keeps proper elements only. -/
theorem cleanStack_rooted (q : Bytes) : ∀ e ∈ cleanStack true q, IsElement e := by
  have hrun : ∀ (es stack : List Bytes), (∀ e ∈ es, slash ∉ e) → (∀ x ∈ stack, IsElement x) →
      ∀ x ∈ es.foldl (cleanStep true) stack, IsElement x := by
    intro es
    induction es with
    | nil => exact fun _ _ hstack => hstack
    | cons e es ih =>
      intro stack hes hstack
      obtain ⟨he, hes⟩ := List.forall_mem_cons.mp hes
      exact ih _ hes (cleanStep_rooted hstack he)
  exact hrun (elements q) [] (slash_notMem_element q) (by simp)

theorem isElement_rooted (q : Bytes) : ∀ e ∈ (cleanStack true q).reverse, IsElement e :=
  fun e he => cleanStack_rooted q e (List.mem_reverse.mp he)

/-- The elements Rel compares on a cleaned path: those Clean keeps, behind the root. -/
theorem relElements_clean {q : Bytes} (hnil : q ≠ []) :
    relElements (clean q) =
      if q.head? = some slash then [] :: (cleanStack true q).reverse else names q := by
  by_cases hhead : q.head? = some slash
  · rw [if_pos hhead, clean_rooted hhead, relElements_absPath (isElement_rooted q)]
  rw [if_neg hhead, clean_relative hnil hhead]
  by_cases hnames : names q = []
  · rw [if_pos hnames, hnames]
    rfl
  · have hdot : joinPath (names q) ≠ dot :=
      joinPath_names_ne (e := dot) hnames (by decide) (Or.inr rfl)
    have hroot : joinPath (names q) ≠ [slash] :=
      joinPath_names_ne (e := []) hnames (by decide) (Or.inl rfl)
    rw [if_neg hnames, relElements, if_neg hdot, if_neg hroot, elements_joinPath_names hnames]

theorem head_clean {q : Bytes} (hnil : q ≠ []) :
    (clean q).head? = some slash ↔ q.head? = some slash := by
  by_cases hhead : q.head? = some slash
  · rw [clean_rooted hhead]
    exact ⟨fun _ => hhead, fun _ => rfl⟩
  · rw [clean_relative hnil hhead]
    refine ⟨fun h => absurd h ?_, fun h => absurd h hhead⟩
    split_ifs with hnames
    · decide
    · exact head_joinPath_names hnames

theorem clean_clean {q : Bytes} (hnil : q ≠ []) : clean (clean q) = clean q := by
  by_cases hhead : q.head? = some slash
  · rw [clean_rooted hhead, clean_absPath (isElement_rooted q)]
  rw [clean_relative hnil hhead]
  by_cases hnames : names q = []
  · rw [if_pos hnames]
    decide
  · have hne : joinPath (names q) ≠ [] :=
      joinPath_names_ne (e := []) hnames (by decide) (Or.inl rfl)
    rw [if_neg hnames, clean_relative hne (head_joinPath_names hnames),
      names_joinPath_names hnames, if_neg hnames]

section Join
variable {dir p : Bytes} (hp : ∀ e ∈ elements p, IsElement e)
include hp

theorem cleanStack_join (rooted : Bool) :
    cleanStack rooted (dir ++ slash :: p) = (elements p).reverse ++ cleanStack rooted dir := by
  rw [cleanStack, elements_append, List.foldl_append, foldl_cleanStep rooted _ _ hp]
  rfl

/-- From every directory the joined path leads back to the path. -/
theorem rel_join (hdir : dir ≠ []) : rel dir (join dir p) = some p := by
  have hnil : dir ++ slash :: p ≠ [] := by simp
  have hhead : (dir ++ slash :: p).head? = dir.head? := List.head?_append_of_ne_nil dir hdir
  refine rel_continued ?_ (relElements_clean hdir) ?_
  · rw [join, clean_clean hnil, head_clean hnil, head_clean hdir, hhead]
  · rw [join, clean_clean hnil, relElements_clean hnil, hhead, names_eq, names_eq,
      cleanStack_join hp, cleanStack_join hp, List.reverse_append, List.reverse_append,
      List.reverse_reverse]
    split_ifs <;> rfl

end Join

def components (path : Bytes) : List Bytes := (elements path).filter (· ≠ [])

theorem components_absPath {dirs : List Bytes} (h : ∀ e ∈ dirs, IsElement e) :
    components (absPath dirs) = dirs := by
  rw [components, elements_absPath h]
  by_cases hnil : dirs = []
  · subst hnil
    rfl
  · rw [if_neg hnil, List.filter_cons_of_neg (by simp), List.filter_eq_self]
    exact fun e he => decide_eq_true (h e he).1

/-- A cleaned path strictly below an absolute directory, with its components there. -/
structure Below (dir path : Bytes) (rest : List Bytes) : Prop where
  absolute : path.head? = some slash
  cleaned : clean path = path
  continued : components path = components dir ++ rest
  strict : rest ≠ []

theorem below_join {dir p : Bytes} (habs : dir.head? = some slash) (hclean : clean dir = dir)
    (hp : ∀ e ∈ elements p, IsElement e) : Below dir (join dir p) (elements p) := by
  rw [clean_rooted habs] at hclean
  have hdirs := isElement_rooted dir
  generalize (cleanStack true dir).reverse = dirs at hclean hdirs
  subst hclean
  have hall : ∀ e ∈ dirs ++ elements p, IsElement e := List.forall_mem_append.mpr ⟨hdirs, hp⟩
  have hjoin := join_absPath hdirs hp (elements_ne_nil p)
  rw [joinPath_elements] at hjoin
  rw [hjoin]
  refine ⟨rfl, clean_absPath hall, ?_, elements_ne_nil p⟩
  rw [components_absPath hall, components_absPath hdirs]

/-- A trimmed path and its lexical normal form, when the path is safe. -/
structure Safe (t : Bytes) (nf : List Bytes) : Prop where
  nonempty : t ≠ []
  relative : t.head? ≠ some slash
  normal : NormalForm Skipped dotdot (elements t) nf
  named : nf ≠ []
  text : Utf8 (joinPath nf)
  descends : dotdot ∉ nf
  unreserved : ∀ e ∈ nf, ¬ Reserved e

theorem Safe.cleanPath {t : Bytes} {nf : List Bytes} (h : Safe t nf) : CleanPath (joinPath nf) := by
  obtain rfl := normalForm_names.mp h.normal
  refine ⟨validString_iff.mpr h.text, ?_⟩
  rw [elements_joinPath_names h.named]
  intro e he
  obtain ⟨hnil, hdot⟩ := not_or.mp ((names_terminal t).not_blank he)
  have hup : e ≠ dotdot := fun heq => h.descends (heq ▸ he)
  exact ⟨⟨hnil, names_slash he, hdot, hup⟩,
    isReservedComponent_eq_false.mpr (h.unreserved e he)⟩

theorem safe_of_cleanPath {t : Bytes} (hnil : t ≠ []) (hhead : t.head? ≠ some slash)
    (h : CleanPath (clean t)) : Safe t (names t) ∧ clean t = joinPath (names t) := by
  rw [clean_relative hnil hhead] at h ⊢
  have hnames : names t ≠ [] := by
    intro heq
    rw [if_pos heq] at h
    exact h.ne_dot rfl
  rw [if_neg hnames] at h ⊢
  obtain ⟨htext, hall⟩ := h
  rw [elements_joinPath_names hnames] at hall
  refine ⟨⟨hnil, hhead, normalForm_names.mpr rfl, hnames, validString_iff.mp htext, ?_, ?_⟩, rfl⟩
  · exact fun hup => (hall dotdot hup).1.2.2.2 rfl
  · exact fun e he => isReservedComponent_eq_false.mp (hall e he).2

theorem cleanRel_iff {s p : Bytes} :
    cleanRel s = .ok p ↔ ∃ t nf, Trimmed s t ∧ Safe t nf ∧ p = joinPath nf := by
  constructor
  · intro h
    obtain ⟨rfl, hnil, hhead, hclean⟩ := cleanRel_ok h
    obtain ⟨hsafe, heq⟩ := safe_of_cleanPath hnil hhead hclean
    exact ⟨trimSpace s, names (trimSpace s), trimmed_iff.mpr rfl, hsafe, heq⟩
  · rintro ⟨t, nf, htrim, hsafe, rfl⟩
    obtain rfl := trimmed_iff.mp htrim
    refine cleanRel_eq_ok ?_ hsafe.cleanPath hsafe.nonempty hsafe.relative
    obtain rfl := normalForm_names.mp hsafe.normal
    rw [clean_relative hsafe.nonempty hsafe.relative, if_neg hsafe.named]

/-- CleanRel accepts exactly the safe paths and returns their normal form. Below an absolute
cleaned directory the result stays strictly below, through no reserved component, and relPath
agrees with CleanRel for every directory. -/
theorem safe_paths_accepted (s : Bytes) :
    (∀ p, cleanRel s = .ok p ↔ ∃ t nf, Trimmed s t ∧ Safe t nf ∧ p = joinPath nf) ∧
    (∀ dir p, dir.head? = some slash → clean dir = dir → cleanRel s = .ok p →
      ∃ rest, Below dir (join dir p) rest ∧ ∀ e ∈ rest, ¬ Reserved e) ∧
    ∀ dir, dir ≠ [] → relPath dir s = cleanRel s := by
  refine ⟨fun _ => cleanRel_iff, ?_,
    fun _ hdir => relPath_of_rel fun _ hp => rel_join hp.isElement hdir⟩
  intro dir p habs hclean hok
  have hp := (cleanRel_ok hok).2.2.2
  refine ⟨elements p, below_join habs hclean hp.isElement, ?_⟩
  exact fun e he => isReservedComponent_eq_false.mp (hp.2 e he).2

theorem padded_path_below_srv :
    (∃ t nf, Trimmed (ascii " a/../b//c ") t ∧ Safe t nf ∧ ascii "b/c" = joinPath nf) ∧
    (∃ rest, Below (ascii "/srv") (join (ascii "/srv") (ascii "b/c")) rest ∧
      ∀ e ∈ rest, ¬ Reserved e) ∧
    relPath (ascii "/srv") (ascii " a/../b//c ") = .ok (ascii "b/c") := by
  have hok : cleanRel (ascii " a/../b//c ") = .ok (ascii "b/c") := by decide +kernel
  obtain ⟨hiff, hbelow, hrel⟩ := safe_paths_accepted (ascii " a/../b//c ")
  exact ⟨(hiff _).mp hok, hbelow _ _ (by decide) (by decide +kernel) hok,
    (hrel _ (by decide)).trans hok⟩

end TailSync.SafePaths
