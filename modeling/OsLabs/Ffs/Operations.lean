import Mathlib
import OsLabs.Ffs.FileSystem
import OsLabs.Ffs.Bitmap
import OsLabs.Ffs.Groups
import OsLabs.Ffs.Allocation

/-!
# What the operations change

`do_create` and `do_delete` either leave the state as it is or make one
`Created` or `Deleted` step, and both keep the directory entries sound.
-/

namespace OsLabs.Ffs

def Live (s : FileSystem) (n : ℤ) : Prop :=
  s.inode_type n = some .regular ∨ s.inode_type n = some .directory

instance (s : FileSystem) (n : ℤ) : Decidable (Live s n) :=
  inferInstanceAs (Decidable (_ ∨ _))

def blocksOf (s : FileSystem) (n : ℤ) : List ℤ := (s.inode_blocks n).getD []

/-- Directory entries name live inodes, and a regular file is named once. -/
structure EntriesSound (s : FileSystem) : Prop where
  root : s.inode_type 0 = some .directory
  dirs : ∀ d es, s.dir_data d = some es → s.inode_type d = some .directory
  live : ∀ d es, s.dir_data d = some es → ∀ e ∈ es, Live s e.2
  once : ∀ n d es, s.inode_type n = some .regular → s.dir_data d = some es →
    (es.map Prod.snd).count n ≤ 1
  home : ∀ n d d' es es', s.inode_type n = some .regular → s.dir_data d = some es →
    s.dir_data d' = some es' → n ∈ es.map Prod.snd → n ∈ es'.map Prod.snd → d = d'

variable {c : Config} {s s' : FileSystem}

/-! ## What the operations do -/

theorem set_name_to_inode_spec {path : Path} {n : ℤ} (h : set_name_to_inode s path n = some s') :
    s' = { s with name_to_inode_map := s.name_to_inode_map ++ [(path, n)] } := by
  unfold set_name_to_inode at h
  split at h
  · cases h
  · exact (Option.some.inj h).symm

theorem allocate_symbol_spec {name : Path} {n : ℤ} (h : allocate_symbol s n name = some s') :
    ∃ m u a, s' = { s with symbol_map := m, used_symbols := u, available_symbols := a } := by
  obtain ⟨choice, _, rfl⟩ := Option.map_eq_some_iff.mp h
  exact ⟨_, _, _, rfl⟩

theorem free_symbol_spec {n : ℤ} (h : free_symbol s n = some s') :
    ∃ m u a, s' = { s with symbol_map := m, used_symbols := u, available_symbols := a } := by
  obtain ⟨symbol, _, h⟩ := Option.bind_eq_some_iff.mp h
  split at h
  · exact ⟨_, _, _, (Option.some.inj h).symm⟩
  · cases h

theorem createParent_spec {path : Path} {size p : ℤ}
    (h : createParent s path size = some (some p)) :
    s.total_inodes_free ≠ 0 ∧ size ≤ s.total_data_free ∧
      name_to_inode s (get_parent path).1 = p ∧ ∃ es, s.dir_data p = some es := by
  simp only [createParent] at h
  split_ifs at h with hinodes hdata hparent
  · simp at h
  · simp at h
  · simp at h
  · obtain ⟨es, hes, h⟩ := Option.bind_eq_some_iff.mp h
    split at h
    · cases h
    · have hp := Option.some.inj (Option.some.inj h)
      exact ⟨hinodes, by omega, hp, es, hp ▸ hes⟩

theorem deleteTarget_spec {path : Path} {p n : ℤ} (h : deleteTarget s path = some (some (p, n))) :
    ∃ es, s.dir_data p = some es ∧ ((get_parent path).2, n) ∈ es ∧
      s.inode_type n ≠ some .directory := by
  simp only [deleteTarget] at h
  split at h
  · cases h
  · obtain ⟨es, hes, h⟩ := Option.bind_eq_some_iff.mp h
    split at h
    · cases h
    · rename_i entry hfind
      obtain ⟨type, htype, h⟩ := Option.bind_eq_some_iff.mp h
      split at h
      · cases h
      · rename_i hne
        obtain ⟨hp, hn⟩ := Prod.mk.inj (Option.some.inj (Option.some.inj h))
        have hmem := List.mem_of_find?_eq_some hfind
        have hname : entry.1 = (get_parent path).2 := by simpa using List.find?_some hfind
        refine ⟨es, hp ▸ hes, ?_, ?_⟩
        · rw [← hname, ← hn]
          exact hmem
        · rw [← hn, htype]
          exact fun heq => hne (Option.some.inj heq)

/-- The state `do_create` leaves, from the state after `allocate_blocks`. -/
structure Created (c : Config) (s s' : FileSystem) (path : Path) (size : ℤ) (type : InodeType)
    (p n : ℤ) (blocks : List ℤ) : Prop where
  data_bitmap : s'.data_bitmap = s.data_bitmap
  total_data_free : s'.total_data_free = s.total_data_free - size
  total_inodes_free : s'.total_inodes_free = s.total_inodes_free - 1
  inode_type : s'.inode_type = Function.update s.inode_type n (some type)
  inode_blocks : s'.inode_blocks = Function.update s.inode_blocks n (some blocks)
  names : s'.name_to_inode_map = s.name_to_inode_map ++ [(path, n)]
  dir_data : ∀ d es', s'.dir_data d = some es' →
    d = n ∧ type = .directory ∧ es' = [(['.'], 0), (['.', '.'], 0)] ∨
    d = p ∧ (∃ es, s.dir_data p = some es ∧ es' = es ++ [((get_parent path).2, n)]) ∨
    d ≠ p ∧ s.dir_data d = some es'

theorem finishCreate_spec {path : Path} {size p group index : ℤ} {type : InodeType}
    {allocated : List (ℤ × ℤ)}
    (h : finishCreate c s path size type p group index allocated = some s') :
    s.inode_bitmap.set c.num_groups c.inodes_per_group group index
        (some (index + group * c.inodes_per_group)) = some s'.inode_bitmap ∧
      Created c s s' path size type p (index + group * c.inodes_per_group)
        (allocated.map c.block) := by
  obtain ⟨s₁, hmark, h⟩ := Option.bind_eq_some_iff.mp h
  obtain ⟨bitmap, hset, hs₁⟩ := Option.bind_eq_some_iff.mp hmark
  obtain rfl := Option.some.inj hs₁
  obtain ⟨es, hes, h⟩ := Option.bind_eq_some_iff.mp h
  obtain ⟨s₂, hname, h⟩ := Option.bind_eq_some_iff.mp h
  obtain ⟨s₃, hsymbol, h⟩ := Option.bind_eq_some_iff.mp h
  obtain rfl := set_name_to_inode_spec hname
  obtain ⟨m, u, a, rfl⟩ := allocate_symbol_spec hsymbol
  obtain rfl := Option.some.inj h
  replace hes : s.dir_data p = some es := hes
  refine ⟨hset, rfl, rfl, rfl, rfl, rfl, rfl, ?_⟩
  intro d es' hd
  have hparent : Function.update s.dir_data p
      (some (es ++ [((get_parent path).2, index + group * c.inodes_per_group)])) d = some es' →
      d = p ∧ (∃ es, s.dir_data p = some es ∧
        es' = es ++ [((get_parent path).2, index + group * c.inodes_per_group)]) ∨
      d ≠ p ∧ s.dir_data d = some es' := by
    intro h
    by_cases hdp : d = p
    · rw [hdp, Function.update_self] at h
      exact Or.inl ⟨hdp, es, hes, (Option.some.inj h).symm⟩
    · rw [Function.update_of_ne hdp] at h
      exact Or.inr ⟨hdp, h⟩
  by_cases htype : type = .directory
  · simp only [htype, if_true] at hd
    by_cases hdn : d = index + group * c.inodes_per_group
    · rw [hdn, Function.update_self] at hd
      exact Or.inl ⟨hdn, htype, (Option.some.inj hd).symm⟩
    · rw [Function.update_of_ne hdn] at hd
      exact Or.inr (hparent hd)
  · simp only [htype, if_false] at hd
    exact Or.inr (hparent hd)

/-- The state `do_delete` leaves. -/
structure Deleted (s s' : FileSystem) (path : Path) (p n : ℤ) : Prop where
  total_data_free : s'.total_data_free = s.total_data_free + (blocksOf s n).length
  total_inodes_free : s'.total_inodes_free = s.total_inodes_free + 1
  inode_type : s'.inode_type = Function.update s.inode_type n (some .cleared)
  inode_blocks : s'.inode_blocks = Function.update s.inode_blocks n (some [])
  names : ∀ e ∈ s'.name_to_inode_map, e ∈ s.name_to_inode_map
  dir_data : ∀ d es', s'.dir_data d = some es' →
    d = p ∧ (∃ es, s.dir_data p = some es ∧ es' = es.erase ((get_parent path).2, n)) ∨
    d ≠ p ∧ s.dir_data d = some es'

theorem do_delete_cases {path : Path} {rc : ℤ} (h : do_delete c s path = some (s', rc)) :
    s' = s ∨ ∃ p n, deleteTarget s path = some (some (p, n)) ∧
      (blocksOf s n).foldlM (fun bitmap b => bitmap.set c.num_groups c.blocks_per_group
        (b.tdiv c.num_groups) (b % c.num_groups) none) s.data_bitmap = some s'.data_bitmap ∧
      s.inode_bitmap.set c.num_groups c.inodes_per_group (n.tdiv c.num_groups)
        (n % c.num_groups) none = some s'.inode_bitmap ∧
      Deleted s s' path p n := by
  obtain ⟨target, htarget, h⟩ := Option.bind_eq_some_iff.mp h
  cases target with
  | none =>
      obtain ⟨hs, _⟩ := Prod.mk.inj (Option.some.inj h)
      exact Or.inl hs.symm
  | some target =>
      obtain ⟨p, n⟩ := target
      obtain ⟨es, hes, h⟩ := Option.bind_eq_some_iff.mp h
      obtain ⟨blocks, hblocks, h⟩ := Option.bind_eq_some_iff.mp h
      obtain ⟨data, hdata, h⟩ := Option.bind_eq_some_iff.mp h
      obtain ⟨inodes, hinodes, h⟩ := Option.bind_eq_some_iff.mp h
      obtain ⟨s₁, hsymbol, h⟩ := Option.bind_eq_some_iff.mp h
      obtain ⟨m, u, a, rfl⟩ := free_symbol_spec hsymbol
      have hown : blocksOf s n = blocks := by
        unfold blocksOf
        rw [hblocks]
        rfl
      split at h
      · obtain ⟨hs, _⟩ := Prod.mk.inj (Option.some.inj h)
        obtain rfl := hs
        refine Or.inr ⟨p, n, htarget, hown ▸ hdata, hinodes, by rw [hown], rfl, rfl, rfl, ?_, ?_⟩
        · exact fun e he => (List.mem_filter.mp he).1
        · intro d es' hd
          replace hd : Function.update s.dir_data p
              (some (es.erase ((get_parent path).2, n))) d = some es' := hd
          by_cases hdp : d = p
          · rw [hdp, Function.update_self] at hd
            exact Or.inl ⟨hdp, es, hes, (Option.some.inj hd).symm⟩
          · rw [Function.update_of_ne hdp] at hd
            exact Or.inr ⟨hdp, hd⟩
      · cases h

theorem do_create_cases {fuel : ℕ} {path : Path} {size rc : ℤ} {type : InodeType}
    (h : do_create c fuel s path size type = some (s', rc)) :
    s' = s ∨ ∃ p group index dest s₁ allocated,
      createParent s path size = some (some p) ∧
      pick_group c s (get_parent path).1 type = some group ∧
      find_free_inode c s group = some index ∧
      dataGroup c s group = some dest ∧
      allocate_blocks c fuel s dest size (index + group * c.inodes_per_group) =
        some (s₁, allocated) ∧
      allocated ≠ [] ∧ finishCreate c s₁ path size type p group index allocated = some s' := by
  obtain ⟨parent, hparent, h⟩ := Option.bind_eq_some_iff.mp h
  cases parent with
  | none =>
      obtain ⟨hs, _⟩ := Prod.mk.inj (Option.some.inj h)
      exact Or.inl hs.symm
  | some p =>
      obtain ⟨group, hgroup, h⟩ := Option.bind_eq_some_iff.mp h
      obtain ⟨index, hindex, h⟩ := Option.bind_eq_some_iff.mp h
      obtain ⟨dest, hdest, h⟩ := Option.bind_eq_some_iff.mp h
      obtain ⟨⟨s₁, allocated⟩, hallocated, h⟩ := Option.bind_eq_some_iff.mp h
      by_cases hnil : allocated = []
      · simp only [hnil, List.length_nil, if_true, Option.pure_def, Option.some.injEq,
          Prod.mk.injEq] at h
        exact Or.inl (h.1.symm.trans ((allocate_blocks_length hallocated).2 hnil))
      · simp only [List.length_eq_zero_iff, hnil, if_false] at h
        obtain ⟨s₂, hfinish, h⟩ := Option.bind_eq_some_iff.mp h
        obtain ⟨rfl, _⟩ := Prod.mk.inj (Option.some.inj h)
        exact Or.inr ⟨p, group, index, dest, s₁, allocated, hparent, hgroup, hindex, hdest,
          hallocated, hnil, hfinish⟩

/-! ## Directory entries -/

theorem EntriesSound.create (h : EntriesSound s) {path : Path} {size p n : ℤ} {type : InodeType}
    {blocks : List ℤ} (hnew : ¬ Live s n) (htype : type = .regular ∨ type = .directory)
    (hcreated : Created c s s' path size type p n blocks) : EntriesSound s' := by
  obtain ⟨hroot, hdirs, hlive, honce, hhome⟩ := h
  have htypes := hcreated.inode_type
  have hdir := hcreated.dir_data
  have hself : s'.inode_type n = some type := by rw [htypes, Function.update_self]
  have hother : ∀ m, m ≠ n → s'.inode_type m = s.inode_type m := by
    intro m hm
    rw [htypes, Function.update_of_ne hm]
  have hlive' : ∀ m, Live s m → Live s' m := by
    intro m hm
    have hne : m ≠ n := by
      rintro rfl
      exact hnew hm
    unfold Live
    rwa [hother m hne]
  have hroot' : s'.inode_type 0 = some .directory := by
    rw [hother 0 _]
    · exact hroot
    · rintro rfl
      exact hnew (Or.inr hroot)
  have hnot : ∀ d es, s.dir_data d = some es → n ∉ es.map Prod.snd := by
    intro d es hes hn
    obtain ⟨e, he, rfl⟩ := List.mem_map.mp hn
    exact hnew (hlive d es hes e he)
  refine ⟨hroot', ?_, ?_, ?_, ?_⟩
  · intro d es' hd
    obtain ⟨rfl, rfl, _⟩ | ⟨rfl, ⟨es, hes, _⟩⟩ | ⟨_, hes⟩ := hdir d es' hd
    · exact hself
    · have := hdirs d es hes
      rw [hother d]
      · exact this
      · rintro rfl
        exact hnew (Or.inr this)
    · have := hdirs d es' hes
      rw [hother d]
      · exact this
      · rintro rfl
        exact hnew (Or.inr this)
  · intro d es' hd e he
    obtain ⟨_, _, rfl⟩ | ⟨_, ⟨es, hes, rfl⟩⟩ | ⟨_, hes⟩ := hdir d es' hd
    · have he0 : e.2 = 0 := by
        obtain rfl | he := List.mem_cons.mp he
        · rfl
        · rw [List.mem_singleton.mp he]
      rw [he0]
      exact Or.inr hroot'
    · obtain he | he := List.mem_append.mp he
      · exact hlive' _ (hlive p es hes e he)
      · rw [List.mem_singleton.mp he]
        unfold Live
        rw [hself]
        exact htype.imp (congrArg some) (congrArg some)
    · exact hlive' _ (hlive d es' hes e he)
  · intro m d es' hm hd
    obtain ⟨_, _, rfl⟩ | ⟨_, ⟨es, hes, rfl⟩⟩ | ⟨_, hes⟩ := hdir d es' hd
    · have hne : ¬ (0 : ℤ) = m := by
        rintro rfl
        rw [hroot'] at hm
        cases hm
      simp [hne]
    · by_cases hmn : m = n
      · rw [hmn, List.map_append, List.count_append, List.count_eq_zero_of_not_mem (hnot p es hes)]
        simp
      · rw [hother m hmn] at hm
        have hone := honce m p es hm hes
        have hne : ¬ n = m := fun h => hmn h.symm
        simpa [hne] using hone
    · by_cases hmn : m = n
      · rw [hmn, List.count_eq_zero_of_not_mem (hnot d es' hes)]
        omega
      · rw [hother m hmn] at hm
        exact honce m d es' hm hes
  · have horigin : ∀ m d es', s'.inode_type m = some .regular → s'.dir_data d = some es' →
        m ∈ es'.map Prod.snd → m = n ∧ d = p ∨
          m ≠ n ∧ ∃ es, s.dir_data d = some es ∧ m ∈ es.map Prod.snd := by
      intro m d es' hm hd hmem
      obtain ⟨_, _, rfl⟩ | ⟨rfl, ⟨es, hes, rfl⟩⟩ | ⟨_, hes⟩ := hdir d es' hd
      · have hm0 : m = 0 := by simpa using hmem
        rw [hm0, hroot'] at hm
        cases hm
      · rw [List.map_append, List.mem_append] at hmem
        obtain hmem | hmem := hmem
        · exact Or.inr ⟨fun hmn => hnot d es hes (hmn ▸ hmem), es, hes, hmem⟩
        · exact Or.inl ⟨by simpa using hmem, rfl⟩
      · exact Or.inr ⟨fun hmn => hnot d es' hes (hmn ▸ hmem), es', hes, hmem⟩
    intro m d d' es es' hm hd hd' hmem hmem'
    obtain ⟨hmn, rfl⟩ | ⟨hmn, es₁, hes₁, hmem₁⟩ := horigin m d es hm hd hmem
    · obtain ⟨_, rfl⟩ | ⟨hne, _⟩ := horigin m d' es' hm hd' hmem'
      · rfl
      · exact absurd hmn hne
    · obtain ⟨heq, _⟩ | ⟨_, es₂, hes₂, hmem₂⟩ := horigin m d' es' hm hd' hmem'
      · exact absurd heq hmn
      · rw [hother m hmn] at hm
        exact hhome m d d' es₁ es₂ hm hes₁ hes₂ hmem₁ hmem₂

theorem EntriesSound.delete (h : EntriesSound s) {path : Path} {p n : ℤ} {es : List (Path × ℤ)}
    (hes : s.dir_data p = some es) (hmem : ((get_parent path).2, n) ∈ es)
    (hregular : s.inode_type n = some .regular) (hdeleted : Deleted s s' path p n) :
    EntriesSound s' := by
  obtain ⟨hroot, hdirs, hlive, honce, hhome⟩ := h
  have htypes := hdeleted.inode_type
  have hdir := hdeleted.dir_data
  have hself : s'.inode_type n = some .cleared := by rw [htypes, Function.update_self]
  have hother : ∀ m, m ≠ n → s'.inode_type m = s.inode_type m := by
    intro m hm
    rw [htypes, Function.update_of_ne hm]
  have hperm := List.perm_cons_erase hmem
  -- what is left of a directory names the same files, without the deleted one
  have horigin : ∀ d es', s'.dir_data d = some es' → n ∉ es'.map Prod.snd ∧
      ∃ es, s.dir_data d = some es ∧ (∀ e ∈ es', e ∈ es) ∧
        ∀ m, (es'.map Prod.snd).count m ≤ (es.map Prod.snd).count m := by
    intro d es' hd
    obtain ⟨rfl, ⟨es₁, hes₁, rfl⟩⟩ | ⟨hdp, hes'⟩ := hdir d es' hd
    · obtain rfl : es₁ = es := Option.some.inj (hes₁.symm.trans hes)
      have hcount := fun m => (hperm.map Prod.snd).count_eq m
      refine ⟨?_, es₁, hes₁, fun e he => List.mem_of_mem_erase he, ?_⟩
      · have hn := hcount n
        have hone := honce n d es₁ hregular hes₁
        simp only [List.map_cons, List.count_cons_self] at hn
        exact List.count_eq_zero.mp (by omega)
      · intro m
        have hm := hcount m
        simp only [List.map_cons, List.count_cons] at hm
        omega
    · refine ⟨fun hn => hdp ?_, es', hes', fun e he => he, fun m => le_rfl⟩
      exact hhome n d p es' es hregular hes' hes hn (List.mem_map_of_mem hmem)
  have hroot0 : (0 : ℤ) ≠ n := by
    rintro rfl
    rw [hroot] at hregular
    cases hregular
  have hsame : ∀ m, s'.inode_type m = some .regular →
      m ≠ n ∧ s.inode_type m = some .regular := by
    intro m hm
    have hmn : m ≠ n := by
      rintro rfl
      rw [hself] at hm
      cases hm
    exact ⟨hmn, by rwa [hother m hmn] at hm⟩
  refine ⟨by rw [hother 0 hroot0, hroot], ?_, ?_, ?_, ?_⟩
  · intro d es' hd
    obtain ⟨_, es₁, hes₁, _, _⟩ := horigin d es' hd
    have hdirectory := hdirs d es₁ hes₁
    have hdn : d ≠ n := by
      rintro rfl
      rw [hregular] at hdirectory
      cases hdirectory
    rwa [hother d hdn]
  · intro d es' hd e he
    obtain ⟨hn, es₁, hes₁, hsub, _⟩ := horigin d es' hd
    have hen : e.2 ≠ n := fun heq => hn (heq ▸ List.mem_map_of_mem he)
    unfold Live
    rw [hother e.2 hen]
    exact hlive d es₁ hes₁ e (hsub e he)
  · intro m d es' hm hd
    obtain ⟨_, es₁, hes₁, _, hcount⟩ := horigin d es' hd
    exact (hcount m).trans (honce m d es₁ (hsame m hm).2 hes₁)
  · intro m d d' es₁ es₂ hm hd hd' hmem₁ hmem₂
    obtain ⟨_, es₃, hes₃, hsub₃, _⟩ := horigin d es₁ hd
    obtain ⟨_, es₄, hes₄, hsub₄, _⟩ := horigin d' es₂ hd'
    have hmap : ∀ {l l' : List (Path × ℤ)}, (∀ e ∈ l, e ∈ l') → m ∈ l.map Prod.snd →
        m ∈ l'.map Prod.snd := by
      intro l l' hsub hml
      exact List.map_subset Prod.snd (fun e he => hsub e he) hml
    exact hhome m d d' es₃ es₄ (hsame m hm).2 hes₃ hes₄ (hmap hsub₃ hmem₁) (hmap hsub₄ hmem₂)

end OsLabs.Ffs
