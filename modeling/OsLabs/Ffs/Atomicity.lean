import OsLabs.Ffs.Progress
import OsLabs.Ffs.Windows

/-!
# Requests that are refused or carried out

What `do_create` and `do_delete` need in order not to raise an exception half way.
-/

namespace OsLabs.Ffs

open OsLabs.Transition

variable {c : Config} {s s' : FileSystem}

inductive Request
  | create (path : Path) (size : ℤ)
  | mkdir (path : Path)
  | delete (path : Path)
deriving DecidableEq, Repr

/-- The request that an action is, without the number of iterations it may take. -/
def Act.request : Act → Request
  | .create path size _ => .create path size
  | .mkdir path _ => .mkdir path
  | .delete path => .delete path

def perform (c : Config) (fuel : ℕ) (s : FileSystem) : Request → Option (FileSystem × ℤ)
  | .create path size => do_create c fuel s path size .regular
  | .mkdir path => do_create c fuel s path 1 .directory
  | .delete path => do_delete c s path

/-- The request ends and is carried out, or it is refused and changes nothing. -/
def Atomic (c : Config) (s : FileSystem) (r : Request) : Prop :=
  ∃ fuel s' rc, perform c fuel s r = some (s', rc) ∧ (rc = 0 ∨ rc = -1 ∧ s' = s)

/-! ## What the requests need -/

/-- If the checks at the start pass: the parent is a directory; and if the name is new: a file is
not empty, there is a symbol left, the path is not in the name map yet, and the best window has
room where windows are compared. -/
def CreateFits (c : Config) (s : FileSystem) (path : Path) (size : ℤ) (type : InodeType) : Prop :=
  s.total_inodes_free ≠ 0 → size ≤ s.total_data_free →
    name_to_inode s (get_parent path).1 ≠ -1 →
    ∃ es ∈ s.dir_data (name_to_inode s (get_parent path).1),
      (∃ e ∈ es, e.1 = (get_parent path).2) ∨
        1 ≤ size ∧ s.available_symbols ≠ [] ∧ s.name_to_inode_map.lookup path = none ∧
          (type = .directory ∨ c.spread_inodes = true → BestWindowHasRoom c s)

/-- The parent is a directory, and if the name is that of a file: the divisions find its blocks
and its inode, and the path is in the name map. -/
def DeleteFits (c : Config) (s : FileSystem) (path : Path) : Prop :=
  name_to_inode s (get_parent path).1 ≠ -1 →
    ∃ es ∈ s.dir_data (name_to_inode s (get_parent path).1),
      ∀ e ∈ es.find? (fun e => e.1 = (get_parent path).2), s.inode_type e.2 ≠ some .directory →
        (∀ b ∈ blocksOf s e.2, c.num_groups = c.blocks_per_group ∨
          b < c.num_groups ∧ b < c.blocks_per_group) ∧
        (c.num_groups = c.inodes_per_group ∨ e.2 < c.num_groups ∧ e.2 < c.inodes_per_group) ∧
        s.name_to_inode_map.lookup path ≠ none

def RequestFits (c : Config) (s : FileSystem) : Request → Prop
  | .create path size => CreateFits c s path size .regular
  | .mkdir path => CreateFits c s path 1 .directory
  | .delete path => DeleteFits c s path

instance (c : Config) (s : FileSystem) (path : Path) (size : ℤ) (type : InodeType) :
    Decidable (CreateFits c s path size type) :=
  inferInstanceAs (Decidable (_ → _ → _ → _))

instance (c : Config) (s : FileSystem) (path : Path) : Decidable (DeleteFits c s path) :=
  inferInstanceAs (Decidable (_ → _))

instance (c : Config) (s : FileSystem) : ∀ r, Decidable (RequestFits c s r)
  | .create path size => inferInstanceAs (Decidable (CreateFits c s path size .regular))
  | .mkdir path => inferInstanceAs (Decidable (CreateFits c s path 1 .directory))
  | .delete path => inferInstanceAs (Decidable (DeleteFits c s path))

/-! ## Symbols and block lists of live inodes -/

/-- Every live inode has a symbol of its own that is in use, and a list of blocks. -/
structure Labelled (s : FileSystem) : Prop where
  nodup : (s.used_symbols ++ s.available_symbols).Nodup
  symbol : ∀ n, Live s n → ∃ sym ∈ s.used_symbols, s.symbol_map n = some sym
  own : ∀ n m, Live s n → Live s m → s.symbol_map n = s.symbol_map m → n = m
  blocks : ∀ n, Live s n → s.inode_blocks n ≠ none

theorem Labelled.init (c : Config) : Labelled (FileSystem.init c) := by
  have hlive (n : ℤ) (hn : Live (FileSystem.init c) n) : n = 0 := by
    by_contra hne
    simp [Live, FileSystem.init, hne] at hn
  refine ⟨?_, fun n hn => ?_, fun n m hn hm _ => ?_, fun n hn => ?_⟩
  · have h : ([['/']] ++ symbols.erase ['/']).Nodup := by decide +kernel
    exact h
  · rw [hlive n hn]
    exact ⟨['/'], List.mem_cons_self, by simp [FileSystem.init]⟩
  · rw [hlive n hn, hlive m hm]
  · rw [hlive n hn]
    simp [FileSystem.init]

theorem allocate_symbol_cases {t t' : FileSystem} {n : ℤ} {name : Path}
    (h : allocate_symbol t n name = some t') :
    ∃ sym ∈ t.available_symbols, t'.used_symbols = t.used_symbols ++ [sym] ∧
      t'.available_symbols = t.available_symbols.erase sym ∧
      t'.symbol_map = Function.update t.symbol_map n (some sym) := by
  obtain ⟨sym, hsym, rfl⟩ := Option.map_eq_some_iff.mp h
  refine ⟨sym, ?_, rfl, rfl, rfl⟩
  split at hsym
  · next hsuggested => exact Option.some.inj hsym ▸ hsuggested.2
  · exact List.mem_of_head? hsym

theorem free_symbol_cases {t t' : FileSystem} {n : ℤ} (h : free_symbol t n = some t') :
    ∃ sym ∈ t.used_symbols, t.symbol_map n = some sym ∧
      t'.used_symbols = t.used_symbols.erase sym ∧
      t'.available_symbols = t.available_symbols ++ [sym] ∧
      t'.symbol_map = Function.update t.symbol_map n none := by
  obtain ⟨sym, hsym, h⟩ := Option.bind_eq_some_iff.mp h
  split at h
  · next hused =>
      obtain rfl := Option.some.inj h
      exact ⟨sym, hused, hsym, rfl, rfl, rfl⟩
  · cases h

theorem finishCreate_symbols {path : Path} {size p group index : ℤ} {type : InodeType}
    {allocated : List (ℤ × ℤ)}
    (h : finishCreate c s path size type p group index allocated = some s') :
    ∃ sym ∈ s.available_symbols, s'.used_symbols = s.used_symbols ++ [sym] ∧
      s'.available_symbols = s.available_symbols.erase sym ∧
      s'.symbol_map = Function.update s.symbol_map (index + group * c.inodes_per_group)
        (some sym) := by
  obtain ⟨s₁, hmark, h⟩ := Option.bind_eq_some_iff.mp h
  obtain ⟨bitmap, -, hs₁⟩ := Option.bind_eq_some_iff.mp hmark
  obtain rfl := Option.some.inj hs₁
  obtain ⟨es, -, h⟩ := Option.bind_eq_some_iff.mp h
  obtain ⟨s₂, hname, h⟩ := Option.bind_eq_some_iff.mp h
  obtain ⟨s₃, hsymbol, hend⟩ := Option.bind_eq_some_iff.mp h
  obtain rfl := set_name_to_inode_spec hname
  obtain ⟨sym, hsym, hused, hleft, hmap⟩ := allocate_symbol_cases hsymbol
  rw [← Option.some.inj hend]
  exact ⟨sym, hsym, hused, hleft, hmap⟩

theorem Labelled.create (h : Labelled s) {path : Path} {size p n : ℤ} {type : InodeType}
    {blocks : List ℤ} {sym : Path} (hnew : ¬ Live s n)
    (hcreated : Created c s s' path size type p n blocks)
    (havailable : sym ∈ s.available_symbols) (hused : s'.used_symbols = s.used_symbols ++ [sym])
    (hleft : s'.available_symbols = s.available_symbols.erase sym)
    (hmap : s'.symbol_map = Function.update s.symbol_map n (some sym)) : Labelled s' := by
  have hlive {m : ℤ} (hm : m ≠ n) (hlive : Live s' m) : Live s m :=
    (live_update hcreated.inode_type hm).mp hlive
  have hfresh : sym ∉ s.used_symbols := fun hmem =>
    List.disjoint_of_nodup_append h.nodup hmem havailable
  have hother {m : ℤ} (hm : m ≠ n) (hlive' : Live s' m) :
      ∃ old ∈ s.used_symbols, s'.symbol_map m = some old ∧ s.symbol_map m = some old := by
    obtain ⟨old, hold, hsymbol⟩ := h.symbol m (hlive hm hlive')
    exact ⟨old, hold, by rw [hmap, Function.update_of_ne hm, hsymbol], hsymbol⟩
  have hself : s'.symbol_map n = some sym := by rw [hmap, Function.update_self]
  refine ⟨?_, fun m hm => ?_, fun m m' hm hm' heq => ?_, fun m hm => ?_⟩
  · rw [hused, hleft, List.append_assoc]
    refine (List.Perm.nodup_iff ?_).mp h.nodup
    exact (List.perm_cons_erase havailable).append_left _
  · rw [hused]
    obtain rfl | hne := eq_or_ne m n
    · exact ⟨sym, List.mem_append_right _ (List.mem_singleton_self sym), hself⟩
    · obtain ⟨old, hold, hsymbol, -⟩ := hother hne hm
      exact ⟨old, List.mem_append_left _ hold, hsymbol⟩
  · obtain rfl | hne := eq_or_ne m n
    · obtain rfl | hne' := eq_or_ne m' m
      · rfl
      · obtain ⟨old, hold, hsymbol, -⟩ := hother hne' hm'
        rw [hself, hsymbol] at heq
        exact absurd (Option.some.inj heq ▸ hold) hfresh
    · obtain ⟨old, hold, hsymbol, hbefore⟩ := hother hne hm
      obtain rfl | hne' := eq_or_ne m' n
      · rw [hself, hsymbol] at heq
        exact absurd (Option.some.inj heq ▸ hold) hfresh
      · obtain ⟨old', -, hsymbol', hbefore'⟩ := hother hne' hm'
        refine h.own m m' (hlive hne hm) (hlive hne' hm') ?_
        rw [hbefore, hbefore', ← hsymbol, heq, hsymbol']
  · rw [hcreated.inode_blocks]
    obtain rfl | hne := eq_or_ne m n
    · rw [Function.update_self]
      exact Option.some_ne_none _
    · rw [Function.update_of_ne hne]
      exact h.blocks m (hlive hne hm)

theorem Labelled.delete (h : Labelled s) {path : Path} {p n : ℤ} {sym : Path}
    (hdeleted : Deleted s s' path p n) (hin : sym ∈ s.used_symbols)
    (hsym : s.symbol_map n = some sym) (hlive : Live s n)
    (hused : s'.used_symbols = s.used_symbols.erase sym)
    (hleft : s'.available_symbols = s.available_symbols ++ [sym])
    (hmap : s'.symbol_map = Function.update s.symbol_map n none) : Labelled s' := by
  have hne {m : ℤ} (hm : Live s' m) : m ≠ n := by
    rintro rfl
    simp [Live, hdeleted.inode_type] at hm
  have hold {m : ℤ} (hm : Live s' m) : Live s m :=
    (live_update hdeleted.inode_type (hne hm)).mp hm
  have hsame {m : ℤ} (hm : Live s' m) : s'.symbol_map m = s.symbol_map m := by
    rw [hmap, Function.update_of_ne (hne hm)]
  refine ⟨?_, fun m hm => ?_, fun m m' hm hm' heq => ?_, fun m hm => ?_⟩
  · rw [hused, hleft]
    refine (List.Perm.nodup_iff ?_).mp h.nodup
    refine ((List.perm_cons_erase hin).append_right _).trans ?_
    rw [← List.append_assoc]
    exact (List.perm_append_singleton sym _).symm
  · obtain ⟨old, hmem, hsymbol⟩ := h.symbol m (hold hm)
    refine ⟨old, ?_, by rw [hsame hm, hsymbol]⟩
    rw [hused]
    refine (List.mem_erase_of_ne ?_).mpr hmem
    rintro rfl
    exact hne hm (h.own m n (hold hm) hlive (by rw [hsymbol, hsym]))
  · exact h.own m m' (hold hm) (hold hm') (by rw [← hsame hm, heq, hsame hm'])
  · rw [hdeleted.inode_blocks, Function.update_of_ne (hne hm)]
    exact h.blocks m (hold hm)

/-! ## The checks at the start -/

theorem createParent_fits {path : Path} {size : ℤ} {type : InodeType}
    (h : CreateFits c s path size type) :
    createParent s path size = some none ∨ ∃ p, createParent s path size = some (some p) ∧
      1 ≤ size ∧ s.available_symbols ≠ [] ∧ s.name_to_inode_map.lookup path = none ∧
      (type = .directory ∨ c.spread_inodes = true → BestWindowHasRoom c s) := by
  rw [CreateFits] at h
  simp only [createParent]
  split_ifs with hinodes hdata hparent
  · exact Or.inl rfl
  · exact Or.inl rfl
  · exact Or.inl rfl
  · obtain ⟨es, hes, hfits⟩ := h hinodes (not_lt.mp hdata) hparent
    rw [Option.mem_def.mp hes, Option.bind_eq_bind, Option.bind_some]
    split
    · exact Or.inl rfl
    · next hany =>
        refine Or.inr ⟨_, rfl, hfits.resolve_left ?_⟩
        rintro ⟨e, he, hname⟩
        exact hany (List.any_eq_true.mpr ⟨e, he, decide_eq_true hname⟩)

theorem deleteTarget_fits (hs : Consistent c s) {path : Path} (h : DeleteFits c s path) :
    deleteTarget s path = some none ∨ ∃ p n, deleteTarget s path = some (some (p, n)) ∧
      (∀ b ∈ blocksOf s n, c.num_groups = c.blocks_per_group ∨
        b < c.num_groups ∧ b < c.blocks_per_group) ∧
      (c.num_groups = c.inodes_per_group ∨ n < c.num_groups ∧ n < c.inodes_per_group) ∧
      s.name_to_inode_map.lookup path ≠ none := by
  rw [DeleteFits] at h
  simp only [deleteTarget]
  split
  · exact Or.inl rfl
  · next hparent =>
      obtain ⟨es, hes, hfits⟩ := h hparent
      rw [Option.mem_def.mp hes, Option.bind_eq_bind, Option.bind_some]
      split
      · exact Or.inl rfl
      · next e hfind =>
          obtain ⟨type, htype⟩ : ∃ type, s.inode_type e.2 = some type :=
            (hs.entries.live _ es hes e (List.mem_of_find?_eq_some hfind)).elim
              (fun hregular => ⟨_, hregular⟩) fun hdir => ⟨_, hdir⟩
          simp only [htype, Option.bind_eq_bind, Option.bind_some]
          split
          · exact Or.inl rfl
          · next hnotdir =>
              refine Or.inr ⟨_, _, rfl, hfits e hfind fun hdir => hnotdir ?_⟩
              exact Option.some.inj (htype.symm.trans hdir)

theorem RequestFits.pickFits (hs : Consistent c s) {a : Act} (h : RequestFits c s a.request) :
    PickFits c s a := by
  have hbest {path : Path} {size : ℤ} {type : InodeType} (h : CreateFits c s path size type)
      (hparent : (createParent s path size).join.isSome)
      (hwindow : type = .directory ∨ c.spread_inodes = true) : BestWindowHasRoom c s := by
    obtain hnone | ⟨p, -, -, -, -, hbest⟩ := createParent_fits h
    · rw [hnone] at hparent
      cases hparent
    · exact hbest hwindow
  cases a with
  | create path size fuel => exact fun hparent hspread => hbest h hparent (Or.inr hspread)
  | mkdir path fuel => exact fun hparent => hbest h hparent (Or.inl rfl)
  | delete path =>
      obtain hnone | ⟨p, n, htarget, hblocks, hinode, -⟩ := deleteTarget_fits hs h
      · simp [PickFits, deleteDivides, hnone]
      · simp only [PickFits, deleteDivides, htarget, Bool.and_eq_true, List.all_eq_true,
          decide_eq_true_eq]
        exact ⟨fun b hb => (hblocks b hb).imp id And.left, hinode.imp id And.left⟩

/-! ## Runs -/

theorem Labelled.do_create (h : Labelled s) (hs : Consistent c s) {fuel : ℕ} {path : Path}
    {size rc : ℤ} {type : InodeType} (hroom : createHasRoom c s path size type = true)
    (hstep : do_create c fuel s path size type = some (s', rc)) : Labelled s' := by
  obtain rfl | ⟨p, group, index, dest, s₁, allocated, hparent, hgroup, hindex, hdest, hallocate,
    hne, hfinish⟩ := do_create_cases hstep
  · exact h
  · obtain ⟨-, -, hfree⟩ := hs.chosen hroom hparent hgroup hindex
    obtain ⟨a, -, rfl, -⟩ := allocate_blocks_cases hallocate
    obtain ⟨-, hcreated⟩ := finishCreate_spec hfinish
    obtain ⟨sym, havailable, hused, hleft, hmap⟩ := finishCreate_symbols hfinish
    have hmarked : Labelled { s with data_bitmap := a.bitmap } :=
      ⟨h.nodup, h.symbol, h.own, h.blocks⟩
    exact hmarked.create (hs.fresh hfree).1 hcreated havailable hused hleft hmap

theorem do_delete_symbols {path : Path} {p n rc : ℤ}
    (htarget : deleteTarget s path = some (some (p, n)))
    (h : do_delete c s path = some (s', rc)) :
    ∃ sym ∈ s.used_symbols, s.symbol_map n = some sym ∧
      s'.used_symbols = s.used_symbols.erase sym ∧
      s'.available_symbols = s.available_symbols ++ [sym] ∧
      s'.symbol_map = Function.update s.symbol_map n none := by
  obtain ⟨target, htarget', h⟩ := Option.bind_eq_some_iff.mp h
  obtain rfl := Option.some.inj (htarget.symm.trans htarget')
  obtain ⟨es, -, h⟩ := Option.bind_eq_some_iff.mp h
  obtain ⟨blocks, -, h⟩ := Option.bind_eq_some_iff.mp h
  obtain ⟨data, -, h⟩ := Option.bind_eq_some_iff.mp h
  obtain ⟨inodes, -, h⟩ := Option.bind_eq_some_iff.mp h
  obtain ⟨s₁, hsymbol, h⟩ := Option.bind_eq_some_iff.mp h
  obtain ⟨sym, hsym, hmap, hused, hleft, hcleared⟩ := free_symbol_cases hsymbol
  split at h
  · obtain ⟨hs', -⟩ := Prod.mk.inj (Option.some.inj h)
    rw [← hs']
    exact ⟨sym, hsym, hmap, hused, hleft, hcleared⟩
  · cases h

theorem Labelled.do_delete (h : Labelled s) (hs : Consistent c s) {path : Path} {rc : ℤ}
    (hstep : do_delete c s path = some (s', rc)) : Labelled s' := by
  obtain rfl | ⟨p, n, htarget, -, -, hdeleted⟩ := do_delete_cases hstep
  · exact h
  · obtain ⟨es, hes, hmem, -⟩ := deleteTarget_spec htarget
    obtain ⟨sym, hsym, hmap, hused, hleft, hcleared⟩ := do_delete_symbols htarget hstep
    exact h.delete hdeleted hsym hmap (hs.entries.live p es hes _ hmem) hused hleft hcleared

structure Orderly (c : Config) (s : FileSystem) : Prop where
  consistent : Consistent c s
  names : NamesInRange c s
  labelled : Labelled s

theorem reach_orderly (hfaraway : 1 ≤ c.allocate_faraway)
    (h : Reach (step c) (fun s a => RequestFits c s a.request) (FileSystem.init c) s) :
    Orderly c s := by
  refine h.invariant ⟨Consistent.init c, NamesInRange.init c, Labelled.init c⟩ ?_
  rintro s a s' ⟨hs, hnames, hlabelled⟩ hfits hstep
  have hfits' : Fits c s a := (hfits.pickFits hs).fits hs hfaraway
  refine ⟨hs.step hfits' hstep, hnames.step hs hfits' hstep, ?_⟩
  cases a with
  | create path size fuel =>
      obtain ⟨⟨s₁, rc⟩, hcreate, rfl⟩ := Option.map_eq_some_iff.mp hstep
      exact hlabelled.do_create hs hfits' hcreate
  | mkdir path fuel =>
      obtain ⟨⟨s₁, rc⟩, hcreate, rfl⟩ := Option.map_eq_some_iff.mp hstep
      exact hlabelled.do_create hs hfits' hcreate
  | delete path =>
      obtain ⟨⟨s₁, rc⟩, hdelete, rfl⟩ := Option.map_eq_some_iff.mp hstep
      exact hlabelled.do_delete hs hdelete

/-! ## Every step of a request succeeds -/

theorem find_min_data_usage_isSome (c : Config) (s : FileSystem) :
    ∃ g, find_min_data_usage c s = some g := by
  have hgroups : ∀ g ∈ range 0 c.num_groups, 0 ≤ g ∧ g < c.num_groups :=
    fun g hg => mem_range_iff.mp hg
  have hloop (groups : List ℤ) (hgroups : ∀ g ∈ groups, 0 ≤ g ∧ g < c.num_groups)
      (best : ℤ × ℤ) : ∃ r, groups.foldlM (fun (best : ℤ × ℤ) g => do
        let data_free ← get_free_data_count c s g
        return if data_free > best.2 then (g, data_free) else best) best = some r := by
    induction groups generalizing best with
    | nil => exact ⟨best, rfl⟩
    | cons g groups ih =>
        obtain ⟨hg0, hg⟩ := hgroups g List.mem_cons_self
        rw [List.foldlM_cons, get_free_data_count, listIndex_of_range hg0 hg]
        exact ih (fun g' hg' => hgroups g' (List.mem_cons_of_mem g hg')) _
  obtain ⟨r, hr⟩ := hloop _ hgroups (-1, 0)
  rw [find_min_data_usage, hr]
  exact ⟨r.1, rfl⟩

theorem dataGroup_isSome (c : Config) (s : FileSystem) (group : ℤ) :
    ∃ dest, dataGroup c s group = some dest := by
  rw [dataGroup]
  split
  · exact find_min_data_usage_isSome c s
  · exact ⟨group, rfl⟩

theorem allocate_symbol_isSome {t : FileSystem} (n : ℤ) (name : Path)
    (h : t.available_symbols ≠ []) : ∃ t', allocate_symbol t n name = some t' := by
  rw [allocate_symbol]
  split
  · exact ⟨_, rfl⟩
  · obtain ⟨sym, l, hl⟩ := List.exists_cons_of_ne_nil h
    rw [hl]
    exact ⟨_, rfl⟩

theorem exists_bind {α β : Type} {x : Option α} {f : α → Option β} (hx : ∃ a, x = some a)
    (hf : ∀ a, x = some a → ∃ b, f a = some b) : ∃ b, x.bind f = some b := by
  obtain ⟨a, ha⟩ := hx
  rw [ha, Option.bind_some]
  exact hf a ha

theorem finishCreate_isSome {path : Path} {size p group index : ℤ} {type : InodeType}
    {allocated : List (ℤ × ℤ)} {es : List (Path × ℤ)}
    (hgroup : 0 ≤ group ∧ group < c.num_groups) (hindex : 0 ≤ index ∧ index < c.inodes_per_group)
    (hes : s.dir_data p = some es) (hnew : s.name_to_inode_map.lookup path = none)
    (hsymbols : s.available_symbols ≠ []) :
    ∃ s', finishCreate c s path size type p group index allocated = some s' := by
  obtain ⟨bitmap, hset⟩ := s.inode_bitmap.exists_set
    (some (index + group * c.inodes_per_group)) hgroup.1 hgroup.2 hindex.1 hindex.2
  simp only [finishCreate, mark_inode_used, hset, Option.bind_eq_bind, Option.bind_some,
    Option.pure_def, hes, set_name_to_inode, hnew, Option.isSome_none, Bool.false_eq_true, if_false]
  exact exists_bind (allocate_symbol_isSome _ _ hsymbols) fun t _ => ⟨_, rfl⟩

/-- A new file gets an inode and blocks, and is entered. -/
theorem Orderly.create (h : Orderly c s) (hcontig : 1 ≤ c.contig_allocation_policy)
    (hfaraway : 1 ≤ c.allocate_faraway) {path : Path} {size p : ℤ} {type : InodeType}
    (htype : type = .regular ∨ type = .directory)
    (hparent : createParent s path size = some (some p)) (hsize : 1 ≤ size)
    (hsymbols : s.available_symbols ≠ []) (hnew : s.name_to_inode_map.lookup path = none)
    (hbest : type = .directory ∨ c.spread_inodes = true → BestWindowHasRoom c s) :
    ∃ fuel s', do_create c fuel s path size type = some (s', 0) := by
  obtain ⟨hs, hnames, -⟩ := h
  obtain ⟨hinodes, hroom, -, es, hes⟩ := createParent_spec hparent
  obtain ⟨group, index, hgroup, hindex, -⟩ :=
    (picksRoom_iff hfaraway hnames (hs.exists_room hinodes) (get_parent path).1 htype).mpr hbest
  have hfits : createHasRoom c s path size type = true := by
    refine hs.createHasRoom hfaraway fun _ hwindow => hbest ?_
    rw [not_and_or, Bool.not_eq_false] at hwindow
    exact hwindow.imp_left htype.resolve_left
  obtain ⟨hgroupRange, hindexRange, -⟩ := hs.chosen hfits hparent hgroup hindex
  obtain ⟨dest, hdest⟩ := dataGroup_isSome c s group
  obtain ⟨hdest0, hdestN⟩ := hs.dataGroup_range hgroupRange (by omega) hdest
  obtain ⟨fuel, a, hloop⟩ := @allocate_blocks_loop_ends c dest size s hcontig hdest0 hdestN hsize
    (hs.data_free ▸ hroom) (index + group * c.inodes_per_group)
  have hallocate : allocate_blocks c fuel s dest size (index + group * c.inodes_per_group) =
      some ({ s with data_bitmap := a.bitmap }, a.allocated) := by
    rw [allocate_blocks, if_pos hroom, hloop]
    rfl
  have hlength : a.allocated.length ≠ 0 := by
    have := (allocate_blocks_length hallocate).1
    omega
  obtain ⟨s', hfinish⟩ := @finishCreate_isSome c { s with data_bitmap := a.bitmap } path size p
    group index type a.allocated es hgroupRange hindexRange hes hnew hsymbols
  refine ⟨fuel, s', ?_⟩
  simp only [do_create, hparent, hgroup, hindex, hdest, hallocate, hlength, hfinish,
    Option.bind_eq_bind, Option.bind_some, Option.pure_def, if_false]

/-! ## Deleting -/

theorem clear_all_isSome {bs : List ℤ} (bitmap : Bitmap)
    (hrange : ∀ b ∈ bs, 0 ≤ b ∧ b < c.num_groups * c.blocks_per_group)
    (hguard : ∀ b ∈ bs, c.num_groups = c.blocks_per_group ∨
      b < c.num_groups ∧ b < c.blocks_per_group) :
    ∃ bitmap', bs.foldlM (fun bitmap b => bitmap.set c.num_groups c.blocks_per_group
      (b.tdiv c.num_groups) (b % c.num_groups) none) bitmap = some bitmap' := by
  induction bs generalizing bitmap with
  | nil => exact ⟨bitmap, rfl⟩
  | cons b bs ih =>
      obtain ⟨hb0, hb⟩ := hrange b List.mem_cons_self
      rw [List.foldlM_cons]
      exact exists_bind (bitmap.exists_clear c.groups_pos hb0 hb (hguard b List.mem_cons_self))
        fun bitmap₁ _ => ih bitmap₁ (fun b' hb' => hrange b' (List.mem_cons_of_mem b hb'))
          fun b' hb' => hguard b' (List.mem_cons_of_mem b hb')

theorem Labelled.free_symbol_isSome {t : FileSystem} {n : ℤ} (h : Labelled s) (hlive : Live s n)
    (hmap : t.symbol_map = s.symbol_map) (hused : t.used_symbols = s.used_symbols) :
    ∃ t', free_symbol t n = some t' := by
  obtain ⟨sym, hsym, hsymbol⟩ := h.symbol n hlive
  rw [free_symbol, hmap, hsymbol, hused]
  exact ⟨_, if_pos hsym⟩

/-- A file that is found is deleted. -/
theorem Orderly.delete (h : Orderly c s) {path : Path} {p n : ℤ}
    (htarget : deleteTarget s path = some (some (p, n)))
    (hblocks : ∀ b ∈ blocksOf s n, c.num_groups = c.blocks_per_group ∨
      b < c.num_groups ∧ b < c.blocks_per_group)
    (hinode : c.num_groups = c.inodes_per_group ∨ n < c.num_groups ∧ n < c.inodes_per_group)
    (hname : s.name_to_inode_map.lookup path ≠ none) :
    ∃ s', do_delete c s path = some (s', 0) := by
  obtain ⟨hs, -, hlabelled⟩ := h
  obtain ⟨es, hes, hmem, -⟩ := deleteTarget_spec htarget
  have hlive : Live s n := hs.entries.live p es hes _ hmem
  obtain ⟨blocks, hlist⟩ := Option.ne_none_iff_exists'.mp (hlabelled.blocks n hlive)
  have hown : blocksOf s n = blocks := by rw [blocksOf, hlist, Option.getD_some]
  obtain ⟨data, hdata⟩ := clear_all_isSome s.data_bitmap (hown ▸ hs.block_range n) (hown ▸ hblocks)
  obtain ⟨hn0, hn⟩ := hs.inode_range n hlive
  obtain ⟨inodes, hinodes⟩ := s.inode_bitmap.exists_clear c.groups_pos hn0 hn hinode
  obtain ⟨t, ht⟩ := @Labelled.free_symbol_isSome s { s with
    dir_data := Function.update s.dir_data p (some (es.erase ((get_parent path).2, n)))
    data_bitmap := data
    inode_bitmap := inodes } n hlabelled hlive rfl rfl
  have hkept : t.name_to_inode_map = s.name_to_inode_map := by
    obtain ⟨m, u, l, rfl⟩ := free_symbol_spec ht
    rfl
  have hsome : (t.name_to_inode_map.lookup path).isSome = true := by
    rw [hkept]
    exact Option.isSome_iff_ne_none.mpr hname
  simp only [do_delete, htarget, hes, hlist, hdata, hinodes, ht, hsome, Option.bind_eq_bind,
    Option.bind_some, Option.pure_def, if_true, Option.some.injEq, Prod.mk.injEq, and_true,
    exists_eq']

/-! ## All requests -/

/-- When the requests before it fit, a request that fits is carried out, or refused without a
change. -/
theorem request_atomic (hcontig : 1 ≤ c.contig_allocation_policy)
    (hfaraway : 1 ≤ c.allocate_faraway)
    (h : Reach (step c) (fun s a => RequestFits c s a.request) (FileSystem.init c) s) {r : Request}
    (hfits : RequestFits c s r) : Atomic c s r := by
  have hs := reach_orderly hfaraway h
  have hcreate {path : Path} {size : ℤ} {type : InodeType}
      (htype : type = .regular ∨ type = .directory) (hfits : CreateFits c s path size type) :
      ∃ fuel s' rc, do_create c fuel s path size type = some (s', rc) ∧
        (rc = 0 ∨ rc = -1 ∧ s' = s) := by
    obtain hnone | ⟨p, hparent, hsize, hsymbols, hnew, hbest⟩ := createParent_fits hfits
    · refine ⟨0, s, -1, ?_, Or.inr ⟨rfl, rfl⟩⟩
      rw [do_create, hnone]
      rfl
    · obtain ⟨fuel, s', hok⟩ :=
        hs.create hcontig hfaraway htype hparent hsize hsymbols hnew hbest
      exact ⟨fuel, s', 0, hok, Or.inl rfl⟩
  cases r with
  | create path size => exact hcreate (Or.inl rfl) hfits
  | mkdir path => exact hcreate (Or.inr rfl) hfits
  | delete path =>
      obtain hnone | ⟨p, n, htarget, hblocks, hinode, hname⟩ :=
        deleteTarget_fits hs.consistent hfits
      · refine ⟨0, s, -1, ?_, Or.inr ⟨rfl, rfl⟩⟩
        rw [perform, do_delete, hnone]
        rfl
      · obtain ⟨s', hok⟩ := hs.delete htarget hblocks hinode hname
        exact ⟨0, s', 0, hok, Or.inl rfl⟩

/-- `-n 4 -d 4 -i 4`, where `do_delete` divides by the right number. -/
def fourGroups : Config :=
  ⟨4, 4, 4, 30, false, 1, false, 1, twoGroups.blocks_pos, twoGroups.blocks_pos,
    twoGroups.blocks_pos⟩

/-- The file in the directory is deleted, and a request before that was refused. -/
def deleteInDirectory : List Act :=
  [.mkdir ['/', 'd'] 8, .create ['/', 'x', '/', 'f'] 1 8, .create ['/', 'd', '/', 'f'] 2 8]

theorem request_atomic_inDirectory :
    ∃ s, run (step fourGroups) (FileSystem.init fourGroups) deleteInDirectory = some s ∧
      s.total_data_free = 12 ∧ Atomic fourGroups s (.delete ['/', 'd', '/', 'f']) := by
  have hrun : ((run (step fourGroups) (FileSystem.init fourGroups) deleteInDirectory).map fun s =>
      (s.total_data_free, decide (RequestFits fourGroups s (.delete ['/', 'd', '/', 'f'])))) =
      some (12, true) := by decide +kernel
  obtain ⟨s, hs, hpair⟩ := Option.map_eq_some_iff.mp hrun
  obtain ⟨hfree, hfits⟩ := Prod.mk.inj hpair
  have hmeets : RunMeets (step fourGroups) (fun s a => RequestFits fourGroups s a.request)
      (FileSystem.init fourGroups) deleteInDirectory := runMeets_of_check (by decide +kernel)
  exact ⟨s, hs, hfree, request_atomic (by decide) (by decide) (reach_of_run _ hmeets hs)
    (of_decide_eq_true hfits)⟩

/-- Below a regular file there is no directory to look into. -/
theorem delete_below_file : ¬ ∀ s, Reach (step twoGroups) anyStep (FileSystem.init twoGroups) s →
    Atomic twoGroups s (.delete ['/', 'a', '/', 'b']) := by
  intro hall
  have hrun : ((run (step twoGroups) (FileSystem.init twoGroups) [.create ['/', 'a'] 1 8]).map
      fun s => (do_delete twoGroups s ['/', 'a', '/', 'b']).isNone) = some true := by
    decide +kernel
  obtain ⟨s, hs, hraises⟩ := Option.map_eq_some_iff.mp hrun
  obtain ⟨fuel, s', rc, hok, -⟩ := hall s (reach_of_run_anyStep _ hs)
  have hnone : do_delete twoGroups s ['/', 'a', '/', 'b'] = none :=
    Option.isNone_iff_eq_none.mp hraises
  cases hnone.symm.trans hok

end OsLabs.Ffs
