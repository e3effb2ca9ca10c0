import Mathlib

/-!
# Directory trees with hard links

Inodes are files or directories; the entries of a directory name other inodes
and directories are never removed. The reference count of a file is the number
of entries that name it, that of a directory counts its subdirectories, and
every inode is reached from the root. Attaching and detaching entries keeps
this sound.
-/

namespace OsLabs.Namespace

inductive Kind
  | file
  | dir
deriving DecidableEq, Repr

/-- `kind` is `none` for a free inode. -/
structure Tree (ι ν : Type*) where
  kind : ι → Option Kind
  entries : ι → List (ν × ι)
  refs : ι → ℤ

variable {ι ν : Type*} [DecidableEq ι]

/-- The number of entries that name an inode. -/
def Tree.links (t : Tree ι ν) (inodes : Finset ι) (n : ι) : ℕ :=
  ∑ d ∈ inodes, (t.entries d).countP fun e => e.2 = n

def Tree.subdirs (t : Tree ι ν) (d : ι) : ℕ :=
  (t.entries d).countP fun e => t.kind e.2 = some .dir

def Tree.Child (t : Tree ι ν) (d n : ι) : Prop := ∃ name, (name, n) ∈ t.entries d

structure Tree.Sound (t : Tree ι ν) (inodes : Finset ι) (root : ι) : Prop where
  within : ∀ n, t.kind n ≠ none → n ∈ inodes
  root_dir : t.kind root = some .dir
  dirs : ∀ d, t.entries d ≠ [] → t.kind d = some .dir
  target : ∀ d, ∀ e ∈ t.entries d, t.kind e.2 ≠ none
  names : ∀ d, ((t.entries d).map Prod.fst).Nodup
  file_refs : ∀ n, t.kind n = some .file → t.refs n = t.links inodes n
  file_linked : ∀ n, t.kind n = some .file → 0 < t.links inodes n
  dir_refs : ∀ d, t.kind d = some .dir → t.refs d = 2 + t.subdirs d
  reachable : ∀ n, t.kind n ≠ none → Relation.ReflTransGen t.Child root n

/-- The directory `d` gets the entry `(name, n)`; its entries may be listed in
another order. -/
structure Attached (t t' : Tree ι ν) (d : ι) (name : ν) (n : ι) : Prop where
  dir : t.kind d = some .dir
  fresh : name ∉ (t.entries d).map Prod.fst
  self : (t'.entries d).Perm ((name, n) :: t.entries d)
  other : ∀ m, m ≠ d → t'.entries m = t.entries m

/-- The directory `d` loses the entry `(name, n)`. -/
structure Detached (t t' : Tree ι ν) (d : ι) (name : ν) (n : ι) : Prop where
  self : (t.entries d).Perm ((name, n) :: t'.entries d)
  other : ∀ m, m ≠ d → t'.entries m = t.entries m

variable {t t' : Tree ι ν} {inodes : Finset ι} {root d n : ι} {name : ν}

/-! ## Counting links -/

theorem sum_change {f g : ι → ℕ} {k : ℕ} (hd : d ∈ inodes) (hself : g d = f d + k)
    (hother : ∀ m, m ≠ d → g m = f m) : ∑ m ∈ inodes, g m = (∑ m ∈ inodes, f m) + k := by
  rw [← Finset.add_sum_erase inodes g hd, ← Finset.add_sum_erase inodes f hd, hself]
  have hrest : ∑ m ∈ inodes.erase d, g m = ∑ m ∈ inodes.erase d, f m :=
    Finset.sum_congr rfl fun m hm => hother m (Finset.ne_of_mem_erase hm)
  omega

theorem links_pos_iff : 0 < t.links inodes n ↔ ∃ d ∈ inodes, t.Child d n := by
  unfold Tree.links
  rw [Finset.sum_pos_iff]
  constructor
  · rintro ⟨d, hd, hpos⟩
    obtain ⟨e, he, hen⟩ := List.countP_pos_iff.mp hpos
    have hen : e.2 = n := by simpa using hen
    exact ⟨d, hd, e.1, hen ▸ he⟩
  · rintro ⟨d, hd, name, hmem⟩
    exact ⟨d, hd, List.countP_pos_iff.mpr ⟨(name, n), hmem, by simp⟩⟩

theorem Attached.links_eq (h : Attached t t' d name n) (hd : d ∈ inodes) (m : ι) :
    t'.links inodes m = t.links inodes m + if n = m then 1 else 0 := by
  apply sum_change hd
  · rw [h.self.countP_eq, List.countP_cons]
    simp
  · intro m' hm'
    rw [h.other m' hm']

theorem Detached.links_eq (h : Detached t t' d name n) (hd : d ∈ inodes) (m : ι) :
    t.links inodes m = t'.links inodes m + if n = m then 1 else 0 := by
  apply sum_change hd
  · rw [h.self.countP_eq, List.countP_cons]
    simp
  · intro m' hm'
    rw [h.other m' hm']

theorem Tree.Sound.links_eq_zero (h : t.Sound inodes root) (hn : t.kind n = none) :
    t.links inodes n = 0 := by
  apply Nat.eq_zero_of_not_pos
  intro hpos
  obtain ⟨d, _, name, hmem⟩ := links_pos_iff.mp hpos
  exact h.target d _ hmem hn

/-! ## Attaching -/

theorem Attached.child (h : Attached t t' d name n) {d' m : ι} (hchild : t.Child d' m) :
    t'.Child d' m := by
  obtain ⟨name', hmem⟩ := hchild
  by_cases hd : d' = d
  · subst hd
    exact ⟨name', h.self.mem_iff.mpr (List.mem_cons_of_mem _ hmem)⟩
  · exact ⟨name', by rwa [h.other d' hd]⟩

theorem Attached.names (h : Attached t t' d name n) (hs : t.Sound inodes root) (d' : ι) :
    ((t'.entries d').map Prod.fst).Nodup := by
  by_cases hd : d' = d
  · subst hd
    rw [(h.self.map Prod.fst).nodup_iff, List.map_cons, List.nodup_cons]
    exact ⟨h.fresh, hs.names d'⟩
  · rw [h.other d' hd]
    exact hs.names d'

theorem Attached.mem (h : Attached t t' d name n) {d' : ι} {e : ν × ι}
    (he : e ∈ t'.entries d') : e ∈ t.entries d' ∨ d' = d ∧ e = (name, n) := by
  by_cases hd : d' = d
  · subst hd
    obtain rfl | he := List.mem_cons.mp (h.self.mem_iff.mp he)
    · exact Or.inr ⟨rfl, rfl⟩
    · exact Or.inl he
  · exact Or.inl (by rwa [← h.other d' hd])

theorem Attached.reachable (h : Attached t t' d name n) (hs : t.Sound inodes root) {m : ι}
    (hm : t.kind m ≠ none ∨ m = n) : Relation.ReflTransGen t'.Child root m := by
  have hold : ∀ m, t.kind m ≠ none → Relation.ReflTransGen t'.Child root m :=
    fun m hm => Relation.ReflTransGen.mono (fun _ _ => h.child) _ _ (hs.reachable m hm)
  obtain hm | rfl := hm
  · exact hold m hm
  · apply (hold d (by rw [h.dir]; exact Option.some_ne_none _)).tail
    exact ⟨name, h.self.mem_iff.mpr List.mem_cons_self⟩

/-- A new file, or a further link to a file. -/
theorem Tree.Sound.attachFile (hs : t.Sound inodes root) (h : Attached t t' d name n)
    (hn : n ∈ inodes) (hkind : t.kind n ≠ some .dir)
    (hself : t'.kind n = some .file) (hother : ∀ m, m ≠ n → t'.kind m = t.kind m)
    (hrefs : t'.refs n = if t.kind n = none then 1 else t.refs n + 1)
    (hrefs_other : ∀ m, m ≠ n → t'.refs m = t.refs m) : t'.Sound inodes root := by
  have hd : d ∈ inodes := hs.within d (by rw [h.dir]; exact Option.some_ne_none _)
  have hlinks : t'.refs n = t'.links inodes n := by
    rw [hrefs, h.links_eq hd, if_pos rfl]
    split
    · rename_i hnone
      simp [hs.links_eq_zero hnone]
    · rename_i hsome
      have hfile : t.kind n = some .file := by
        cases hk : t.kind n with
        | none => exact absurd hk hsome
        | some k =>
            cases k with
            | file => rfl
            | dir => exact absurd hk hkind
      rw [hs.file_refs n hfile]
      push_cast
      rfl
  have halloc : ∀ m, t.kind m ≠ none ∨ m = n ↔ t'.kind m ≠ none := by
    intro m
    by_cases hm : m = n
    · simp [hm, hself]
    · simp [hm, hother m hm]
  have hdir : ∀ m, t.kind m = some .dir ↔ t'.kind m = some .dir := by
    intro m
    by_cases hm : m = n
    · simp [hm, hself, hkind]
    · rw [hother m hm]
  refine ⟨?_, ?_, ?_, ?_, h.names hs, ?_, ?_, ?_, ?_⟩
  · intro m hm
    obtain hm | rfl := (halloc m).mpr hm
    · exact hs.within m hm
    · exact hn
  · exact (hdir root).mp hs.root_dir
  · intro d' hd'
    rw [← hdir]
    by_cases hdd : d' = d
    · rw [hdd, h.dir]
    · rw [h.other d' hdd] at hd'
      exact hs.dirs d' hd'
  · intro d' e he
    obtain he | ⟨_, rfl⟩ := h.mem he
    · exact (halloc _).mp (Or.inl (hs.target d' e he))
    · exact (halloc _).mp (Or.inr rfl)
  · intro m hm
    by_cases hmn : m = n
    · rw [hmn, hlinks]
    · rw [hother m hmn] at hm
      rw [hrefs_other m hmn, h.links_eq hd, if_neg (Ne.symm hmn), hs.file_refs m hm]
      rfl
  · intro m hm
    rw [h.links_eq hd]
    by_cases hmn : m = n
    · rw [if_pos hmn.symm]
      omega
    · rw [hother m hmn] at hm
      exact Nat.lt_of_lt_of_le (hs.file_linked m hm) (Nat.le_add_right _ _)
  · intro d' hd'
    have hd'n : d' ≠ n := by
      rintro rfl
      rw [hself] at hd'
      cases hd'
    rw [hrefs_other d' hd'n, hs.dir_refs d' ((hdir d').mpr hd')]
    have hcount : ∀ l : List (ν × ι), l.countP (fun e => t'.kind e.2 = some .dir) =
        l.countP fun e => t.kind e.2 = some .dir := by
      intro l
      apply List.countP_congr
      intro e _
      simp [hdir]
    unfold Tree.subdirs
    rw [hcount]
    by_cases hdd : d' = d
    · rw [hdd, h.self.countP_eq, List.countP_cons]
      simp [hkind]
    · rw [h.other d' hdd]
  · exact fun m hm => h.reachable hs ((halloc m).mpr hm)

/-- A new directory. -/
theorem Tree.Sound.attachDir (hs : t.Sound inodes root) (h : Attached t t' d name n)
    (hn : n ∈ inodes) (hkind : t.kind n = none)
    (hself : t'.kind n = some .dir) (hother : ∀ m, m ≠ n → t'.kind m = t.kind m)
    (hrefs : t'.refs n = 2) (hrefs_parent : t'.refs d = t.refs d + 1)
    (hrefs_other : ∀ m, m ≠ n → m ≠ d → t'.refs m = t.refs m) : t'.Sound inodes root := by
  have hd : d ∈ inodes := hs.within d (by rw [h.dir]; exact Option.some_ne_none _)
  have hdn : d ≠ n := by
    rintro rfl
    rw [h.dir] at hkind
    cases hkind
  have halloc : ∀ m, t.kind m ≠ none ∨ m = n ↔ t'.kind m ≠ none := by
    intro m
    by_cases hm : m = n
    · simp [hm, hself]
    · simp [hm, hother m hm]
  -- no old entry names the new directory
  have hnot : ∀ d', ∀ e ∈ t.entries d', e.2 ≠ n := by
    rintro d' e he rfl
    exact hs.target d' e he hkind
  have hcount : ∀ d', (t.entries d').countP (fun e => t'.kind e.2 = some .dir) =
      t.subdirs d' := by
    intro d'
    apply List.countP_congr
    intro e he
    rw [hother e.2 (hnot d' e he)]
  refine ⟨?_, ?_, ?_, ?_, h.names hs, ?_, ?_, ?_, ?_⟩
  · intro m hm
    obtain hm | rfl := (halloc m).mpr hm
    · exact hs.within m hm
    · exact hn
  · rw [hother root _]
    · exact hs.root_dir
    · rintro rfl
      rw [hs.root_dir] at hkind
      cases hkind
  · intro d' hd'
    by_cases hdd : d' = d
    · rw [hdd, hother d hdn, h.dir]
    · rw [h.other d' hdd] at hd'
      have := hs.dirs d' hd'
      rw [hother d' _, this]
      rintro rfl
      rw [this] at hkind
      cases hkind
  · intro d' e he
    obtain he | ⟨_, rfl⟩ := h.mem he
    · exact (halloc _).mp (Or.inl (hs.target d' e he))
    · exact (halloc _).mp (Or.inr rfl)
  · intro m hm
    have hmn : m ≠ n := by
      rintro rfl
      rw [hself] at hm
      cases hm
    rw [hother m hmn] at hm
    have hmd : m ≠ d := by
      rintro rfl
      rw [h.dir] at hm
      cases hm
    rw [hrefs_other m hmn hmd, h.links_eq hd, if_neg (Ne.symm hmn), hs.file_refs m hm]
    rfl
  · intro m hm
    have hmn : m ≠ n := by
      rintro rfl
      rw [hself] at hm
      cases hm
    rw [hother m hmn] at hm
    rw [h.links_eq hd]
    exact Nat.lt_of_lt_of_le (hs.file_linked m hm) (Nat.le_add_right _ _)
  · intro d' hd'
    by_cases hd'n : d' = n
    · have hnone : t.entries n = [] := by
        by_contra hne
        rw [hs.dirs n hne] at hkind
        cases hkind
      rw [hd'n, hrefs, Tree.subdirs, h.other n (Ne.symm hdn), hnone]
      rfl
    · rw [hother d' hd'n] at hd'
      unfold Tree.subdirs
      by_cases hdd : d' = d
      · rw [hdd, hrefs_parent, hs.dir_refs d h.dir, h.self.countP_eq, List.countP_cons, hcount]
        simp [hself]
        ring
      · rw [hrefs_other d' hd'n hdd, hs.dir_refs d' hd', h.other d' hdd, hcount]
  · exact fun m hm => h.reachable hs ((halloc m).mpr hm)

/-! ## Detaching -/

theorem Detached.mem (h : Detached t t' d name n) {d' : ι} {e : ν × ι}
    (he : e ∈ t'.entries d') : e ∈ t.entries d' := by
  by_cases hd : d' = d
  · subst hd
    exact h.self.mem_iff.mpr (List.mem_cons_of_mem _ he)
  · rwa [← h.other d' hd]

theorem Detached.child (h : Detached t t' d name n) {d' m : ι} (hm : m ≠ n)
    (hchild : t.Child d' m) : t'.Child d' m := by
  obtain ⟨name', hmem⟩ := hchild
  by_cases hd : d' = d
  · subst hd
    obtain heq | hmem := List.mem_cons.mp (h.self.mem_iff.mp hmem)
    · exact absurd (Prod.mk.inj heq).2 hm
    · exact ⟨name', hmem⟩
  · exact ⟨name', by rwa [h.other d' hd]⟩

/-- A link to a file goes, and the file with the last one. -/
theorem Tree.Sound.detachFile (hs : t.Sound inodes root) (h : Detached t t' d name n)
    (hfile : t.kind n = some .file)
    (hself : t'.kind n = if t.refs n = 1 then none else some .file)
    (hother : ∀ m, m ≠ n → t'.kind m = t.kind m)
    (hrefs : t.refs n ≠ 1 → t'.refs n = t.refs n - 1)
    (hrefs_other : ∀ m, m ≠ n → t'.refs m = t.refs m) : t'.Sound inodes root := by
  have hmem : (name, n) ∈ t.entries d := h.self.mem_iff.mpr List.mem_cons_self
  have hdir : t.kind d = some .dir := hs.dirs d (List.ne_nil_of_mem hmem)
  have hd : d ∈ inodes := hs.within d (by rw [hdir]; exact Option.some_ne_none _)
  have hlinks := h.links_eq hd n
  rw [if_pos rfl] at hlinks
  have hcount := hs.file_refs n hfile
  have hdirs : ∀ m, t'.kind m = some .dir ↔ t.kind m = some .dir := by
    intro m
    by_cases hm : m = n
    · rw [hm, hself, hfile]
      split <;> simp
    · rw [hother m hm]
  have hfileOf : ∀ m, t'.kind m = some .file → m = n ∧ t.refs n ≠ 1 ∨
      m ≠ n ∧ t.kind m = some .file := by
    intro m hm
    by_cases hmn : m = n
    · rw [hmn, hself] at hm
      split at hm
      · cases hm
      · exact Or.inl ⟨hmn, ‹_›⟩
    · exact Or.inr ⟨hmn, by rwa [← hother m hmn]⟩
  have hkept : ∀ m, t'.kind m ≠ none → t.kind m ≠ none := by
    intro m hm
    by_cases hmn : m = n
    · rw [hmn, hfile]
      exact Option.some_ne_none _
    · rwa [← hother m hmn]
  refine ⟨?_, ?_, ?_, ?_, ?_, ?_, ?_, ?_, ?_⟩
  · exact fun m hm => hs.within m (hkept m hm)
  · exact (hdirs root).mpr hs.root_dir
  · intro d' hd'
    rw [hdirs]
    obtain ⟨e, he⟩ := List.exists_mem_of_ne_nil _ hd'
    exact hs.dirs d' (List.ne_nil_of_mem (h.mem he))
  · intro d' e he
    by_cases hen : e.2 = n
    · have hpos : 0 < t'.links inodes n := by
        apply links_pos_iff.mpr
        refine ⟨d', ?_, e.1, hen ▸ he⟩
        apply hs.within
        rw [hs.dirs d' (List.ne_nil_of_mem (h.mem he))]
        exact Option.some_ne_none _
      rw [hen, hself, if_neg (by omega)]
      exact Option.some_ne_none _
    · rw [hother e.2 hen]
      exact hs.target d' e (h.mem he)
  · intro d'
    by_cases hdd : d' = d
    · have hnodup := (h.self.map Prod.fst).nodup_iff.mp (hs.names d)
      rw [hdd]
      exact (List.nodup_cons.mp hnodup).2
    · rw [h.other d' hdd]
      exact hs.names d'
  · intro m hm
    obtain ⟨rfl, hne⟩ | ⟨hmn, hm⟩ := hfileOf m hm
    · rw [hrefs hne]
      omega
    · have hm' := h.links_eq hd m
      rw [if_neg (Ne.symm hmn)] at hm'
      rw [hrefs_other m hmn, hs.file_refs m hm, hm']
      rfl
  · intro m hm
    obtain ⟨rfl, hne⟩ | ⟨hmn, hm⟩ := hfileOf m hm
    · omega
    · have hm' := h.links_eq hd m
      rw [if_neg (Ne.symm hmn)] at hm'
      have := hs.file_linked m hm
      omega
  · intro d' hd'
    rw [hdirs] at hd'
    have hd'n : d' ≠ n := by
      rintro rfl
      rw [hfile] at hd'
      cases hd'
    rw [hrefs_other d' hd'n, hs.dir_refs d' hd']
    unfold Tree.subdirs
    have hsame : ∀ l : List (ν × ι), l.countP (fun e => t'.kind e.2 = some .dir) =
        l.countP fun e => t.kind e.2 = some .dir := by
      intro l
      apply List.countP_congr
      intro e _
      simp [hdirs]
    rw [hsame]
    by_cases hdd : d' = d
    · rw [hdd, h.self.countP_eq, List.countP_cons]
      simp [hfile]
    · rw [h.other d' hdd]
  · -- a path to another inode does not pass the file, which has no entries
    have hpath : ∀ m, Relation.ReflTransGen t.Child root m → t.kind m = some .dir ∨ m ≠ n →
        Relation.ReflTransGen t'.Child root m := by
      intro m hm
      induction hm with
      | refl => exact fun _ => Relation.ReflTransGen.refl
      | @tail a b _ hab ih =>
          intro hb
          have ha : t.kind a = some .dir := by
            obtain ⟨name', hmem'⟩ := hab
            exact hs.dirs a (List.ne_nil_of_mem hmem')
          have hbn : b ≠ n := by
            rintro rfl
            obtain hb | hb := hb
            · rw [hfile] at hb
              cases hb
            · exact hb rfl
          exact (ih (Or.inl ha)).tail (h.child hbn hab)
    intro m hm
    by_cases hmn : m = n
    · subst hmn
      rw [hself] at hm
      have hne : t.refs m ≠ 1 := fun heq => hm (if_pos heq)
      have hpos : 0 < t'.links inodes m := by
        have := hs.file_linked m hfile
        omega
      obtain ⟨d', _, name', hmem'⟩ := links_pos_iff.mp hpos
      have hd' : t.kind d' = some .dir := hs.dirs d' (List.ne_nil_of_mem (h.mem hmem'))
      apply (hpath d' (hs.reachable d' (by rw [hd']; exact Option.some_ne_none _))
        (Or.inl hd')).tail
      exact ⟨name', hmem'⟩
    · exact hpath m (hs.reachable m (hkept m hm)) (Or.inr hmn)

end OsLabs.Namespace
