import Fsmnt.ForStd.Separated
import Fsmnt.ForStd.Except
import Fsmnt.Native.Core.Namespace

/-!
# Canonical paths as lists of components

A canonical path is its components joined with slashes, and `canonical_path` computes the
components of the path it is given and resolves the dots among them. The namespace compares
paths as strings; on canonical paths these comparisons are comparisons of component lists.
-/

namespace Fsmnt.Core

open List Option

/-- The text of a list of components. -/
def pathText (cs : List Path) : Path := ['/'].intercalate cs

@[simp] theorem pathText_nil : pathText [] = [] := rfl

/-- A component of a canonical path. -/
structure Component (n : Path) : Prop where
  ne_nil : n ≠ []
  slash : '/' ∉ n
  dot : n ≠ ['.']
  dotDot : n ≠ ['.', '.']

/-- A component that every filesystem reads as it stands: no backslash, no drive in front. -/
structure PlainName (n : Path) : Prop extends Component n where
  backslash : '\\' ∉ n
  drive : withoutDrive n = n

/-- A list of components of a canonical path. -/
def Components (cs : List Path) : Prop := ∀ n ∈ cs, Component n

/-- A list of plain components. -/
def PlainNames (cs : List Path) : Prop := ∀ n ∈ cs, PlainName n

/-- A path none of whose components holds a backslash or starts with a drive. -/
def PlainPath (path : Path) : Prop := ∀ n ∈ path.splitOn '/', '\\' ∉ n ∧ withoutDrive n = n

variable {cs ds : List Path} {n path c : Path}

theorem PlainNames.components (h : PlainNames cs) : Components cs :=
  fun n hn => (h n hn).toComponent

theorem Components.separatorFree (h : Components cs) : List.SeparatorFree '/' cs :=
  fun n hn => (h n hn).slash

theorem Components.ne_nil (h : Components cs) : ∀ n ∈ cs, n ≠ [] := fun n hn => (h n hn).ne_nil

theorem PlainNames.append_singleton (hc : PlainNames cs) (hn : PlainName n) :
    PlainNames (cs ++ [n]) := by
  intro m hm
  rcases mem_append.mp hm with h | h
  · exact hc m h
  · rw [mem_singleton.mp h]
    exact hn

/-- Canonical paths are as good as their components. -/
theorem pathText_inj (hc : Components cs) (hd : Components ds) :
    pathText cs = pathText ds ↔ cs = ds :=
  intercalate_inj hc.ne_nil hd.ne_nil hc.separatorFree hd.separatorFree

theorem pathText_eq_nil_iff (hc : Components cs) : pathText cs = [] ↔ cs = [] :=
  intercalate_eq_nil_iff hc.ne_nil

/-- A separator stands between a path and what lies below it. -/
theorem pathText_append (hc : cs ≠ []) (hd : ds ≠ []) :
    pathText (cs ++ ds) = pathText cs ++ '/' :: pathText ds :=
  intercalate_append hc hd

@[simp] theorem pathText_singleton : pathText [n] = n := intercalate_singleton

theorem pathText_cons (hc : cs ≠ []) : pathText (n :: cs) = n ++ '/' :: pathText cs := by
  simpa using pathText_append (cons_ne_nil n []) hc

/-! ## What `canonical_path` computes -/

/-- The non-empty components of the normalized path. -/
def componentsOf (path : Path) : List Path := ((normalizePath path).splitOn '/').filter (· ≠ [])

/-- Components are pushed as they are. -/
theorem foldlM_pushComponent_eq_append (hd : Components ds) :
    ds.foldlM pushComponent cs = some (cs ++ ds) := by
  induction ds generalizing cs with
  | nil => simp
  | cons n ds ih =>
    have hn : Component n := hd n mem_cons_self
    have hpush : pushComponent cs n = some (cs ++ [n]) := by
      rw [pushComponent, if_neg hn.dot, if_neg hn.dotDot]
    rw [foldlM_cons, hpush, bind_eq_bind, bind_some, ih (fun m hm => hd m (mem_cons_of_mem n hm))]
    simp

/-- Every branch of `canonical_path` resolves the components of the normalized path. -/
theorem canonicalPath_eq (path : Path) : canonicalPath path =
      match (componentsOf path).foldlM pushComponent [] with
      | none => .error (.invalidPath path)
      | some components => .ok (pathText components) := by
  unfold canonicalPath componentsOf
  by_cases hnil : normalizePath path = []
  · rw [hnil]
    rfl
  rw [if_neg hnil]
  split
  · -- nothing to resolve: the components are kept and their text is the normalized path
    rename_i hall
    have hcomp : Components ((normalizePath path).splitOn '/') := by
      intro n hn
      have hn' := all_eq_true.mp hall n hn
      simp only [decide_eq_true_eq] at hn'
      exact ⟨hn'.1, separatorFree_splitOn '/' _ n hn, hn'.2.1, hn'.2.2⟩
    have hfilter : ((normalizePath path).splitOn '/').filter (· ≠ []) =
        (normalizePath path).splitOn '/' :=
      filter_eq_self.mpr fun n hn => decide_eq_true (hcomp n hn).ne_nil
    rw [hfilter, foldlM_pushComponent_eq_append hcomp, nil_append]
    dsimp only
    rw [pathText, intercalate_splitOn]
  · rfl

/-- Resolving drops names and puts none in. -/
theorem sublist_of_foldlM_pushComponent {acc : List Path}
    (h : ds.foldlM pushComponent acc = some cs) :
    cs <+ acc ++ ds.filter fun n => n ≠ ['.'] ∧ n ≠ ['.', '.'] := by
  induction ds generalizing acc with
  | nil =>
    cases h
    simp
  | cons d ds ih =>
    rw [foldlM_cons, bind_eq_bind, bind_eq_some_iff] at h
    obtain ⟨acc', hpush, h⟩ := h
    have hih := ih h
    unfold pushComponent at hpush
    split at hpush
    · cases hpush
      simpa [*] using hih
    split at hpush
    · split at hpush
      · cases hpush
      · cases hpush
        simpa [*] using hih.trans ((dropLast_sublist acc).append_right _)
    · cases hpush
      simpa [*] using hih

/-- What is left after `..` was resolved stood in the path. -/
theorem component_of_mem_foldlM (h : (componentsOf path).foldlM pushComponent [] = some cs)
    (hn : n ∈ cs) : n ∈ componentsOf path ∧ Component n := by
  have hmem := (sublist_of_foldlM_pushComponent h).mem hn
  simp only [nil_append, mem_filter, decide_eq_true_eq] at hmem
  obtain ⟨hmem, hdot, hdotDot⟩ := hmem
  have hsplit := hmem
  rw [componentsOf, mem_filter, decide_eq_true_eq] at hsplit
  exact ⟨hmem, hsplit.2, separatorFree_splitOn '/' _ n hsplit.1, hdot, hdotDot⟩

/-- `canonical_path` returns the text of a list of components. -/
theorem exists_components_of_canonicalPath (h : canonicalPath path = .ok c) :
    ∃ cs, Components cs ∧ c = pathText cs := by
  rw [canonicalPath_eq] at h
  split at h
  · cases h
  rename_i components hfold
  cases h
  exact ⟨components, fun _ hn => (component_of_mem_foldlM hfold hn).2, rfl⟩

/-! ## The names in a path -/

/-- What stands between the slashes of a path. -/
def names (path : Path) : List Path := (path.splitOn '/').filter (· ≠ [])

theorem names_append (path path' : Path) :
    names (path ++ '/' :: path') = names path ++ names path' := by
  rw [names, splitOn_append_cons_self, filter_append, names, names]

/-- Leading separators carry no name. -/
theorem names_dropWhile (path : Path) : names (path.dropWhile (· = '/')) = names path := by
  induction path with
  | nil => rfl
  | cons a path ih =>
    by_cases ha : a = '/'
    · rw [dropWhile_cons_of_pos (by simpa using ha), ih, ha]
      exact (names_append [] path).symm
    · rw [dropWhile_cons_of_neg (by simpa using ha)]

theorem names_pathText (h : List.SeparatorFree '/' cs) :
    names (pathText cs) = cs.filter (· ≠ []) := by
  by_cases hnil : cs = []
  · rw [hnil]
    rfl
  · rw [names, pathText, splitOn_intercalate '/' h hnil]

/-- A canonical path has its components as names. -/
theorem Components.names_pathText (h : Components cs) : names (pathText cs) = cs := by
  rw [Core.names_pathText h.separatorFree]
  exact filter_eq_self.mpr fun n hn => decide_eq_true (h n hn).ne_nil

theorem withoutDrive_suffix (path : Path) : withoutDrive path <:+ path := by
  unfold withoutDrive
  split
  · split
    · exact ⟨[_, _], rfl⟩
    · exact suffix_rfl
  · exact suffix_rfl

/-- Without backslashes the components are the names behind the drive. -/
theorem componentsOf_eq (hback : '\\' ∉ path) : componentsOf path = names (withoutDrive path) := by
  replace hback : '\\' ∉ withoutDrive path := fun hmem =>
    hback ((withoutDrive_suffix path).mem hmem)
  rw [componentsOf, normalizePath]
  generalize withoutDrive path = path at hback
  have hdrop : path.dropWhile (fun c => c = '/' || c = '\\') = path.dropWhile (· = '/') := by
    induction path with
    | nil => rfl
    | cons a path ih =>
      have ha : a ≠ '\\' := fun heq => hback (heq ▸ mem_cons_self)
      simp only [dropWhile_cons, ha, decide_false, Bool.or_false,
        ih (fun hmem => hback (mem_cons_of_mem a hmem))]
  -- no character that is left is a backslash
  have hid : ∀ c ∈ path.dropWhile (· = '/'), (if c = '\\' then '/' else c) = c := by
    intro c hc
    rw [if_neg]
    rintro rfl
    exact hback ((dropWhile_sublist _).mem hc)
  rw [hdrop, List.map_congr_left hid, List.map_id']
  exact names_dropWhile _

/-- A drive is looked for in the first name only. -/
theorem withoutDrive_pathText (n : Path) (cs : List Path) :
    withoutDrive (pathText (n :: cs)) = pathText (withoutDrive n :: cs) := by
  by_cases hnil : cs = []
  · rw [hnil, pathText_singleton, pathText_singleton]
  rw [pathText_cons hnil, pathText_cons hnil]
  match n with
  | [] =>
    unfold withoutDrive
    grind
  | [a] => rfl
  | a :: b :: n =>
    by_cases hb : b = ':'
    · rw [hb, cons_append, cons_append, withoutDrive, withoutDrive]
      split <;> rfl
    · simp [withoutDrive, hb]

theorem backslash_mem_pathText : '\\' ∈ pathText cs ↔ ∃ n ∈ cs, '\\' ∈ n := by
  induction cs with
  | nil => simp
  | cons n cs ih =>
    by_cases hnil : cs = []
    · simp [hnil]
    · simp [pathText_cons hnil, ih]

/-- Names that a path carries as they are: no backslash, and no drive in front. -/
structure Carried (cs : List Path) : Prop where
  backslash : ∀ n ∈ cs, '\\' ∉ n
  drive : ∀ n ∈ cs.head?, withoutDrive n = n

theorem Carried.componentsOf_pathText (h : Carried cs) :
    componentsOf (pathText cs) = names (pathText cs) := by
  have hdrive : withoutDrive (pathText cs) = pathText cs := by
    cases cs with
    | nil => rfl
    | cons n cs => rw [withoutDrive_pathText, h.drive n rfl]
  have hback : '\\' ∉ pathText cs := fun hmem => by
    obtain ⟨n, hn, hmem⟩ := backslash_mem_pathText.mp hmem
    exact h.backslash n hn hmem
  rw [componentsOf_eq hback, hdrive]

/-! ## Plain paths -/

theorem PlainPath.componentsOf_eq (h : PlainPath path) : componentsOf path = names path := by
  have hjoin : pathText (path.splitOn '/') = path := intercalate_splitOn '/'
  have hcarried : Carried (path.splitOn '/') :=
    ⟨fun n hn => (h n hn).1, fun n hn => (h n (mem_of_mem_head? hn)).2⟩
  have := hcarried.componentsOf_pathText
  rwa [hjoin] at this

theorem PlainName.names_eq (hn : PlainName n) : names n = [n] := by
  rw [names, splitOn_eq_singleton hn.slash]
  simp [hn.ne_nil]

/-- A plain path with one more plain component. -/
theorem PlainPath.child (h : PlainPath path) (hn : PlainName n) : PlainPath (path ++ '/' :: n) := by
  intro m hm
  rw [splitOn_append_cons_self, splitOn_eq_singleton hn.slash] at hm
  rcases mem_append.mp hm with hm | hm
  · exact h m hm
  · rw [mem_singleton.mp hm]
    exact ⟨hn.backslash, hn.drive⟩

theorem PlainNames.plainPath (h : PlainNames cs) : PlainPath (pathText cs) := by
  intro n hn
  by_cases hnil : cs = []
  · rw [hnil, pathText_nil, splitOn_nil, mem_singleton] at hn
    rw [hn]
    exact ⟨not_mem_nil, rfl⟩
  · rw [pathText, splitOn_intercalate '/' h.components.separatorFree hnil] at hn
    exact ⟨(h n hn).backslash, (h n hn).drive⟩

theorem Components.canonicalPath_eq (hc : Components cs) (h : componentsOf path = cs) :
    canonicalPath path = .ok (pathText cs) := by
  rw [Core.canonicalPath_eq, h, foldlM_pushComponent_eq_append hc]
  rfl

/-- The canonical path of the text of plain components is that text. -/
theorem PlainNames.canonicalPath_pathText (h : PlainNames cs) :
    canonicalPath (pathText cs) = .ok (pathText cs) :=
  h.components.canonicalPath_eq
    (h.plainPath.componentsOf_eq.trans h.components.names_pathText)

/-- A plain path resolves to plain components, and its child to one more. -/
theorem PlainPath.exists_plainNames (h : PlainPath path) (hc : canonicalPath path = .ok c) :
    ∃ cs, PlainNames cs ∧ c = pathText cs ∧
      ∀ n, PlainName n → canonicalPath (path ++ '/' :: n) = .ok (pathText (cs ++ [n])) := by
  rw [canonicalPath_eq] at hc
  split at hc
  · cases hc
  rename_i cs hfold
  cases hc
  refine ⟨cs, ?_, rfl, ?_⟩
  · intro n hn
    obtain ⟨hmem, hcomp⟩ := component_of_mem_foldlM hfold hn
    rw [h.componentsOf_eq, names, mem_filter] at hmem
    exact ⟨hcomp, (h n hmem.1).1, (h n hmem.1).2⟩
  · intro n hn
    have hlast : [n].foldlM pushComponent cs = some (cs ++ [n]) :=
      foldlM_pushComponent_eq_append (by simpa [Components] using hn.toComponent)
    rw [canonicalPath_eq, (h.child hn).componentsOf_eq, names_append, hn.names_eq,
      ← h.componentsOf_eq, foldlM_append, hfold, bind_eq_bind, bind_some, hlast]

/-! ## Listed names -/

theorem notMem_of_mem_componentsOf (hn : n ∈ componentsOf path) : '\\' ∉ n := by
  intro hmem
  have hpath := backslash_mem_pathText.mpr ⟨n, (mem_filter.mp hn).1, hmem⟩
  rw [pathText, intercalate_splitOn, normalizePath] at hpath
  grind

/-- A canonical path is its own canonical path. -/
theorem Carried.canonicalPath_pathText (h : Carried cs) (hc : Components cs) :
    canonicalPath (pathText cs) = .ok (pathText cs) ∧
      canonicalPath ('/' :: pathText cs) = .ok (pathText cs) := by
  refine ⟨hc.canonicalPath_eq (h.componentsOf_pathText.trans hc.names_pathText), ?_⟩
  by_cases hnil : cs = []
  · rw [hnil]
    rfl
  have hslash : Carried ([] :: cs) := ⟨by simpa using h.backslash, by simp [withoutDrive]⟩
  have hcomponents := hslash.componentsOf_pathText
  rw [pathText_cons hnil] at hcomponents
  exact hc.canonicalPath_eq (hcomponents.trans ((names_append [] _).trans hc.names_pathText))

/-- Names that come back from the canonical path of their text are carried as they are. -/
theorem carried_of_canonicalPath (hc : Components cs) (h : canonicalPath (pathText cs) = .ok c)
    (hnames : names c = cs) : Carried cs := by
  rw [canonicalPath_eq] at h
  split at h
  · cases h
  rename_i ds hfold
  cases h
  have hds : Components ds := fun _ hn => (component_of_mem_foldlM hfold hn).2
  cases hds.names_pathText.symm.trans hnames
  have hback : ∀ n ∈ cs, '\\' ∉ n := fun n hn =>
    notMem_of_mem_componentsOf (component_of_mem_foldlM hfold hn).1
  refine ⟨hback, fun n hn => ?_⟩
  obtain ⟨cs, rfl⟩ := head?_eq_some_iff.mp hn
  have hsub := (sublist_of_foldlM_pushComponent hfold).trans filter_sublist
  rw [componentsOf_eq (fun hmem => by
    obtain ⟨m, hm, hmem⟩ := backslash_mem_pathText.mp hmem
    exact hback m hm hmem), withoutDrive_pathText, names_pathText] at hsub
  · -- with a drive in front one name would be shorter
    exact (cons.inj ((hsub.trans filter_sublist).eq_of_length rfl)).1.symm
  · rintro m (_ | ⟨_, hm⟩) hmem
    · exact hc.separatorFree n mem_cons_self ((withoutDrive_suffix n).mem hmem)
    · exact hc.separatorFree m (mem_cons_of_mem n hm) hmem

/-- A canonical path is its own canonical path exactly if the first component that was left does not
    look like a drive. -/
theorem canonicalPath_idempotent_iff (h : canonicalPath path = .ok c) :
    ∃ cs, (componentsOf path).foldlM pushComponent [] = some cs ∧ c = pathText cs ∧
      (canonicalPath c = .ok c ↔ ∀ n ∈ cs.head?, withoutDrive n = n) := by
  rw [canonicalPath_eq] at h
  split at h
  · cases h
  rename_i cs hfold
  cases h
  have hcs : Components cs := fun _ hn => (component_of_mem_foldlM hfold hn).2
  refine ⟨cs, hfold, rfl, fun hagain => ?_, fun hdrive => ?_⟩
  · exact (carried_of_canonicalPath hcs hagain hcs.names_pathText).drive
  · have hcarried : Carried cs :=
      ⟨fun n hn => notMem_of_mem_componentsOf (component_of_mem_foldlM hfold hn).1, hdrive⟩
    exact (hcarried.canonicalPath_pathText hcs).1

/-! ## Paths compared as strings -/

/-- `isBelow` is a proper extension of the components, -/
theorem isBelow_pathText (hc : Components cs) (hd : Components ds) (hne : ds ≠ []) :
    isBelow (pathText cs) (pathText ds) = true ↔ ∃ r, r ≠ [] ∧ cs = ds ++ r := by
  have hiff : isBelow (pathText cs) (pathText ds) = true ↔
      ∃ t, pathText cs = pathText ds ++ '/' :: t := by
    unfold isBelow
    cases hsuffix : (pathText ds).isPrefixOf? (pathText cs) with
    | none =>
      simp only [Bool.false_eq_true, false_iff]
      rintro ⟨t, ht⟩
      have hsome := isPrefixOf?_eq_some_iff_append_eq.mpr ht.symm
      rw [hsuffix] at hsome
      cases hsome
    | some t =>
      have ht := append_eq_of_isPrefixOf?_eq_some hsuffix
      rw [← ht]
      cases t with
      | nil => simp
      | cons a t => simp
  rw [hiff]
  constructor
  · rintro ⟨t, ht⟩
    obtain ⟨r, hr, heq, -⟩ := (intercalate_eq_append_cons_iff hne hd.separatorFree
      hc.separatorFree).mp ht
    exact ⟨r, hr, heq⟩
  · rintro ⟨r, hr, rfl⟩
    exact ⟨pathText r, pathText_append hne hr⟩

/-- and `isAtOrBelow` any extension. -/
theorem isAtOrBelow_pathText (hc : Components cs) (hd : Components ds) (hne : ds ≠ []) :
    isAtOrBelow (pathText cs) (pathText ds) = true ↔ ds <+: cs := by
  rw [isAtOrBelow, Bool.or_eq_true, decide_eq_true_eq, pathText_inj hc hd,
    isBelow_pathText hc hd hne]
  constructor
  · rintro (rfl | ⟨r, -, rfl⟩)
    · exact prefix_rfl
    · exact prefix_append ds r
  · rintro ⟨r, rfl⟩
    by_cases hr : r = []
    · exact .inl (by rw [hr, append_nil])
    · exact .inr ⟨r, hr, rfl⟩

end Fsmnt.Core
