import TestAtlas.Proofs.Explorer.Session

/-!
# The root of a directory

While the manifests stay as they are, the owner of each directory is fixed, and the roots below
which a directory can stand are few: its owner, or if it has none, the workspace folders from which
it is reached.  So two items for one directory stand below one root, and are one item, unless the
directory is shared by two folders: `IsOrderly.eq_of_idOf?`.
-/

namespace TestAtlas

open TestAtlas.Path

namespace Workspace

variable {w : Workspace} {c : Conventions}

/-- A directory without an owner that is reached from two of the folders. -/
def IsShared (w : Workspace) (c : Conventions) (folders : List String) (d : String) : Prop :=
  w.nearestManifest c d = none ∧
    ∃ f ∈ folders, ∃ g ∈ folders, f ≠ g ∧ c.Reaches f d ∧ c.Reaches g d

end Workspace

namespace Judgement

/-- The judgement that owners are the nearest manifests of a workspace. -/
def ofManifests (w : Workspace) (c : Conventions) (named : String → String → Prop) : Judgement where
  owns := fun d o => o = w.nearestManifest c d
  named := named

/-- The judgement holds in every workspace with the same manifests. -/
theorem holds_ofManifests {w w' : Workspace} {c : Conventions} {named : String → String → Prop}
    (hsame : ∀ d, IsLocation d → w'.nearestManifest c d = w.nearestManifest c d)
    (hnamed : ∀ m, named m (Survey.moduleLabel w' c m)) : (ofManifests w c named).Holds w' c where
  inherited :=
    { manifest := by
        intro d hd hman
        exact ((hsame d hd).symm.trans (w'.nearestManifest_of_hasManifest c hd hman)).symm
      root := by
        intro hman
        have hroot := hsame "/" isLocation_root
        rw [w'.nearestManifest_root, if_neg (by simpa using hman)] at hroot
        exact hroot
      below := by
        intro d s o hd hs hman howns
        have hbelow := hsame (below d s) (hd.below hs)
        rw [w'.nearestManifest_below c hd hs, if_neg (by simpa using hman), hsame d hd] at hbelow
        exact Eq.trans howns hbelow }
  above := by
    intro d m hd howns
    obtain ⟨hm, hin, -⟩ := (w.nearestManifest_eq_some_iff c hd).mp (Eq.symm howns)
    exact ⟨hm, hin⟩
  labelled := hnamed

variable {w : Workspace} {c : Conventions} {named : String → String → Prop}
  {folders : List String}

/-- A root has the owner that is asked of its packages. -/
theorem nearestManifest_of_isRoot {r : Item} (hr : IsLocation r.location)
    (h : (ofManifests w c named).IsRoot folders r.kind r.location r.label) :
    w.nearestManifest c r.location = Explorer.ownerOfRoot r := by
  have hne := hr.ne_empty
  unfold Explorer.ownerOfRoot
  generalize r.kind = kind, r.location = location, r.label = label at h hr hne ⊢
  cases h with
  | module hd howns =>
      rw [if_pos ⟨rfl, hne⟩]
      exact Workspace.nearestManifest_self hd (Eq.symm howns)
  | workspace hd _ hin howns =>
      rw [if_neg fun hmodule => Kind.noConfusion hmodule.1]
      exact Workspace.nearestManifest_eq_none_of_isAtOrBelow hd hr hin (Eq.symm howns)

end Judgement

/-- The directory stands, or can stand, below the root. -/
structure Item.IsHome (w : Workspace) (c : Conventions) (folders : List String) (r : Item)
    (d : String) : Prop where
  kind : r.kind = .module ∨ r.kind = .workspace ∧ r.location ∈ folders
  location : IsLocation r.location
  reaches : c.Reaches r.location d
  owner : w.nearestManifest c d = Explorer.ownerOfRoot r

namespace Item.IsHome

variable {w : Workspace} {c : Conventions} {folders : List String} {r r' : Item} {d : String}

theorem of_isRoot {named : String → String → Prop} (hr : IsLocation r.location)
    (h : (Judgement.ofManifests w c named).IsRoot folders r.kind r.location r.label) :
    r.IsHome w c folders r.location where
  kind := by
    generalize r.kind = kind, r.location = location, r.label = label at h ⊢
    cases h with
    | module => exact Or.inl rfl
    | workspace _ hmem => exact Or.inr ⟨rfl, hmem⟩
  location := hr
  reaches := .refl c r.location
  owner := Judgement.nearestManifest_of_isRoot hr h

theorem ownerOfRoot_eq (h : r.IsHome w c folders d) :
    Explorer.ownerOfRoot r = if r.kind = .module then some r.location else none := by
  unfold Explorer.ownerOfRoot
  by_cases hk : r.kind = .module
  · rw [if_pos ⟨hk, h.location.ne_empty⟩, if_pos hk]
  · rw [if_neg fun hmodule => hk hmodule.1, if_neg hk]

/-- A directory that is not shared has one home. -/
theorem unique (h : r.IsHome w c folders d) (h' : r'.IsHome w c folders d)
    (hshared : ¬ w.IsShared c folders d) : r.kind = r'.kind ∧ r.location = r'.location := by
  have hown := h.owner.symm.trans h'.owner
  rw [h.ownerOfRoot_eq, h'.ownerOfRoot_eq] at hown
  rcases h.kind with hk | ⟨hk, hmem⟩ <;> rcases h'.kind with hk' | ⟨hk', hmem'⟩
  · rw [if_pos hk, if_pos hk', Option.some.injEq] at hown
    exact ⟨hk.trans hk'.symm, hown⟩
  · rw [if_pos hk, hk', if_neg (by decide)] at hown
    exact absurd hown (by simp)
  · rw [hk, if_neg (by decide), if_pos hk'] at hown
    exact absurd hown (by simp)
  · refine ⟨hk.trans hk'.symm, ?_⟩
    by_contra hne
    have hnone : w.nearestManifest c d = none := by
      rw [h.owner, h.ownerOfRoot_eq, hk, if_neg (by decide)]
    exact hshared ⟨hnone, _, hmem, _, hmem', hne, h.reaches, h'.reaches⟩

end Item.IsHome

namespace Forest

/-! ## Below one top item -/

/-- An item is a top item or stands below it. -/
inductive IsBelow (f : Forest) (r : ItemNo) : ItemNo → Prop
  | top : r ∈ f.top → IsBelow f r r
  | child {m n : ItemNo} : IsBelow f r m → n ∈ f.children m → IsBelow f r n

theorem inTree_iff_isBelow {f : Forest} {n : ItemNo} : f.InTree n ↔ ∃ r, f.IsBelow r n := by
  constructor
  · intro h
    induction h with
    | top hn => exact ⟨_, .top hn⟩
    | under _ hn ih =>
        obtain ⟨r, hr⟩ := ih
        exact ⟨r, .child hr hn⟩
  · rintro ⟨r, hr⟩
    induction hr with
    | top hn => exact .top hn
    | child _ hn ih => exact .under ih hn

theorem IsBelow.inTree {f : Forest} {r n : ItemNo} (h : f.IsBelow r n) : f.InTree n :=
  inTree_iff_isBelow.mpr ⟨r, h⟩

theorem IsBelow.eq_of_mem_top {f : Forest} (hf : f.IsConsistent) {r n : ItemNo}
    (h : f.IsBelow r n) (hn : n ∈ f.top) : r = n := by
  cases h with
  | top => rfl
  | child _ hchild => exact absurd hchild (hf.not_mem_children hn _)

theorem IsBelow.of_child {f : Forest} (hf : f.IsConsistent) {r m n : ItemNo}
    (h : f.IsBelow r n) (hn : n ∈ f.children m) : f.IsBelow r m := by
  cases h with
  | top htop => exact absurd hn (hf.not_mem_children htop m)
  | child hk hchild => rwa [hf.parent_unique hn hchild]

theorem isBelow_iff_lineage {f : Forest} {r n : ItemNo} :
    f.IsBelow r n ↔ ∃ ns, f.Lineage (r :: ns) n := by
  constructor
  · intro h
    induction h with
    | top hn => exact ⟨[], .top hn⟩
    | child _ hn ih =>
        obtain ⟨ns, hns⟩ := ih
        exact ⟨_, .under hns hn⟩
  · rintro ⟨ns, hns⟩
    -- the induction is on the way, which has to be a variable for that
    generalize hms : r :: ns = ms at hns
    induction hns generalizing ns with
    | top hn =>
        obtain ⟨rfl, -⟩ := List.cons.inj hms
        exact .top hn
    | @under ms m n hm hn ih =>
        cases ms with
        | nil => exact absurd hm.length_pos (by simp)
        | cons r' ms =>
            obtain ⟨rfl, -⟩ := List.cons.inj hms
            exact .child (ih ms rfl) hn

theorem IsBelow.grows {f g : Forest} (hfg : f.Grows g) {r n : ItemNo} (h : f.IsBelow r n) :
    g.IsBelow r n := by
  obtain ⟨ns, hns⟩ := isBelow_iff_lineage.mp h
  exact isBelow_iff_lineage.mpr ⟨ns, hns.grows hfg⟩

/-- An item stands below one top item only. -/
theorem IsBelow.top_unique {f : Forest} (hf : f.IsConsistent) {r r' n : ItemNo}
    (h : f.IsBelow r n) (h' : f.IsBelow r' n) : r = r' := by
  induction h with
  | top hn => exact (h'.eq_of_mem_top hf hn).symm
  | child _ hn ih => exact ih (h'.of_child hf hn)

variable {cwd : String} {c : Conventions} {folders : List String} {f : Forest}

theorem IsOrderly.idOf?_congr {fits : Option Item → Item → Prop} (h : f.IsOrderly cwd fits)
    {m n : ItemNo} {i j : Item} (hi : f.item? m = some i) (hj : f.item? n = some j)
    (hkind : i.kind = j.kind) (hlocation : i.location = j.location) (hname : i.name = j.name) :
    f.idOf? m = f.idOf? n := by
  have hid := (h.genuine m i hi).identified
  rw [hkind, hlocation, hname, (h.genuine n j hj).identified, Except.ok.injEq] at hid
  rw [idOf?, idOf?, hi, hj, Option.map_some, Option.map_some, hid]

/-- Items at one place are one item if they agree in kind, location and name. -/
theorem IsOrderly.eq_of_mem {fits : Option Item → Item → Prop} (h : f.IsOrderly cwd fits)
    {place : Place} {m n : ItemNo} {i j : Item} (hm : m ∈ f.members place)
    (hn : n ∈ f.members place) (hi : f.item? m = some i) (hj : f.item? n = some j)
    (hkind : i.kind = j.kind) (hlocation : i.location = j.location) (hname : i.name = j.name) :
    m = n :=
  h.consistent.distinct place m n hm hn (h.idOf?_congr hi hj hkind hlocation hname)

section SameTop

variable {J : Judgement} {r m n : ItemNo} {i j : Item}

theorem IsOrderly.name_eq_none {fits : Option Item → Item → Prop} (h : f.IsOrderly cwd fits)
    (hi : f.item? n = some i) (hk : i.kind.isLeaf = false) : i.name = none :=
  ((h.genuine n i hi).plain hk).1

/-- A package below a top item is a child of it. -/
theorem IsOrderly.package_below (h : f.IsOrderly cwd (Belongs c J folders))
    (hn : f.IsBelow r n) (hi : f.item? n = some i) (hk : i.kind = .package) :
    n ∈ f.children r ∧ ∃ p, f.item? r = some p ∧ i.location ≠ p.location := by
  obtain ⟨m, p, hm, hchild, hp, hroot, -, hne, -⟩ := h.package_stands hn.inTree hi hk
  have hrm := (hn.of_child h.consistent hchild).eq_of_mem_top h.consistent
    (h.root_stands hm hp hroot).1
  subst hrm
  exact ⟨hchild, p, hp, hne⟩

/-- Below one top item there is one item for a directory. -/
theorem IsOrderly.directory_eq (h : f.IsOrderly cwd (Belongs c J folders))
    (hm : f.IsBelow r m) (hn : f.IsBelow r n) (hi : f.item? m = some i) (hj : f.item? n = some j)
    (hik : i.kind.isRoot = true ∨ i.kind = .package)
    (hjk : j.kind.isRoot = true ∨ j.kind = .package) (hlocation : i.location = j.location) :
    m = n := by
  -- a root is the top item itself, so a package has another location
  have hroot : ∀ {k l : ItemNo} {p q : Item}, f.IsBelow r k → f.IsBelow r l →
      f.item? k = some p → f.item? l = some q → p.kind.isRoot = true → q.kind = .package →
      p.location ≠ q.location := by
    intro k l p q hk hl hp hq hpk hqk heq
    have hrk := hk.eq_of_mem_top h.consistent (h.root_stands hk.inTree hp hpk).1
    obtain ⟨-, p', hp', hne⟩ := h.package_below hl hq hqk
    rw [hrk, hp, Option.some.injEq] at hp'
    exact hne (hp' ▸ heq.symm)
  rcases hik with hik | hik <;> rcases hjk with hjk | hjk
  · have hrm := hm.eq_of_mem_top h.consistent (h.root_stands hm.inTree hi hik).1
    have hrn := hn.eq_of_mem_top h.consistent (h.root_stands hn.inTree hj hjk).1
    exact hrm.symm.trans hrn
  · exact absurd hlocation (hroot hm hn hi hj hik hjk)
  · exact absurd hlocation.symm (hroot hn hm hj hi hjk hik)
  · have hmem := (h.package_below hm hi hik).1
    have hmem' := (h.package_below hn hj hjk).1
    have hname : i.name = j.name := by
      rw [h.name_eq_none hi (by rw [hik]; rfl), h.name_eq_none hj (by rw [hjk]; rfl)]
    exact h.eq_of_mem hmem hmem' hi hj (hik.trans hjk.symm) hlocation hname

theorem IsOrderly.file_eq (h : f.IsOrderly cwd (Belongs c J folders))
    (hm : f.IsBelow r m) (hn : f.IsBelow r n) (hi : f.item? m = some i) (hj : f.item? n = some j)
    (hik : i.kind = .file) (hjk : j.kind = .file) (hlocation : i.location = j.location) :
    m = n := by
  obtain ⟨k, p, -, hmem, hp, hpk, hpd, -⟩ := h.file_stands hm.inTree hi hik
  obtain ⟨l, q, -, hmem', hq, hqk, hqd, -⟩ := h.file_stands hn.inTree hj hjk
  -- both stand below an item of their directory, and there is one such item
  have hpq : p.location = q.location := by rw [← hpd, ← hqd, hlocation]
  have hkl := h.directory_eq (hm.of_child h.consistent hmem) (hn.of_child h.consistent hmem')
    hp hq hpk hqk hpq
  subst hkl
  have hname : i.name = j.name := by
    rw [h.name_eq_none hi (by rw [hik]; rfl), h.name_eq_none hj (by rw [hjk]; rfl)]
  exact h.eq_of_mem hmem hmem' hi hj (hik.trans hjk.symm) hlocation hname

/-- Below one top item the identifiers are unique. -/
theorem IsOrderly.eq_of_isBelow (h : f.IsOrderly cwd (Belongs c J folders))
    (hm : f.IsBelow r m) (hn : f.IsBelow r n) (hid : f.idOf? m = f.idOf? n) : m = n := by
  obtain ⟨i, hi⟩ := h.exists_item_of_inTree hm.inTree
  obtain ⟨j, hj⟩ := h.exists_item_of_inTree hn.inTree
  rw [idOf?, idOf?, hi, hj, Option.map_some, Option.map_some, Option.some.injEq] at hid
  obtain ⟨hlocation, hkind, hname⟩ := (h.genuine m i hi).eq_of_id (h.genuine n j hj) hid
  -- the identifier fixes kind, location and name, so each kind is a case of its own
  cases hk : i.kind with
  | module | workspace =>
      have hroot : i.kind.isRoot = true := by rw [hk]; rfl
      exact h.directory_eq hm hn hi hj (Or.inl hroot) (Or.inl (hkind ▸ hroot)) hlocation
  | package => exact h.directory_eq hm hn hi hj (Or.inr hk) (Or.inr (hkind ▸ hk)) hlocation
  | file => exact h.file_eq hm hn hi hj hk (hkind ▸ hk) hlocation
  | test | benchmark | «example» =>
      have hleaf : i.kind.isLeaf = true := by rw [hk]; rfl
      obtain ⟨k, p, -, hmem, hp, hpk, hpl⟩ := h.leaf_stands hm.inTree hi hleaf
      obtain ⟨l, q, -, hmem', hq, hqk, hql⟩ := h.leaf_stands hn.inTree hj (hkind ▸ hleaf)
      have hpq : p.location = q.location := by rw [← hpl, ← hql, hlocation]
      have hkl := h.file_eq (hm.of_child h.consistent hmem) (hn.of_child h.consistent hmem')
        hp hq hpk hqk hpq
      subst hkl
      exact h.eq_of_mem hmem hmem' hi hj hkind hlocation hname

end SameTop

/-! ## When leaves are brought up to date -/

section Reconciled

variable {J : Judgement} {g : Forest} {m n : ItemNo} {i j : Item} {wanted : List String}
  {rec : Reconciliation}

/-- The way to what is no leaf stays when the leaves of a file are brought up to date. -/
theorem Lineage.of_isReconciled (h : f.IsOrderly cwd (Belongs c J folders))
    (hm : f.item? m = some i) (hfile : i.kind = .file) (hdone : IsReconciled f g m wanted rec)
    {ns : List ItemNo} (hn : f.Lineage ns n) (hj : f.item? n = some j)
    (hleaf : j.kind.isLeaf = false) : g.Lineage ns n := by
  induction hn generalizing j with
  | top hn =>
      have htop : g.top = f.top := hdone.frame .top (by simp)
      exact .top (htop ▸ hn)
  | @under ns k n hk hn ih =>
      have hkt : f.InTree k := inTree_iff_lineage.mpr ⟨ns, hk⟩
      obtain ⟨p, hp⟩ := h.exists_item_of_inTree hkt
      -- nothing stands below a leaf, so no item on the way is one
      have hparent : p.kind.isLeaf = false := by
        by_contra hcon
        rw [children_of_isLeaf h hp (by simpa using hcon)] at hn
        exact absurd hn (by simp)
      -- below the file itself there are leaves only
      have hne : k ≠ m := by
        rintro rfl
        obtain ⟨l, hl, hlleaf⟩ := isLeaf_of_mem_children h hm hfile hn
        rw [hj, Option.some.injEq] at hl
        rw [← hl, hleaf] at hlleaf
        exact absurd hlleaf (by simp)
      have hchildren : g.members (.under k) = f.members (.under k) :=
        hdone.frame _ (by simpa using hne)
      refine .under (ih hp hparent) ?_
      rw [children, hchildren]
      exact hn

theorem IsBelow.of_isReconciled (h : f.IsOrderly cwd (Belongs c J folders))
    (hm : f.item? m = some i) (hfile : i.kind = .file) (hdone : IsReconciled f g m wanted rec)
    {r : ItemNo} (hn : f.IsBelow r n) (hj : f.item? n = some j)
    (hleaf : j.kind.isLeaf = false) : g.IsBelow r n := by
  obtain ⟨ns, hns⟩ := isBelow_iff_lineage.mp hn
  exact isBelow_iff_lineage.mpr ⟨ns, hns.of_isReconciled h hm hfile hdone hj hleaf⟩

/-- What is no leaf was there before the leaves of a file were brought up to date. -/
theorem InTree.lt_size_of_isReconciled {c' : Conventions} {folders' : List String}
    (hf : f.IsConsistent) (hg : g.IsOrderly cwd (Belongs c' J folders'))
    (hm : f.item? m = some i) (hfile : i.kind = .file)
    (hdone : IsReconciled f g m wanted rec) (hn : g.InTree n) (hj : g.item? n = some j)
    (hleaf : j.kind.isLeaf = false) : n < f.nodes.size := by
  cases hn with
  | top hn =>
      have htop : g.members .top = f.members .top := hdone.frame .top (by simp)
      have hmem : n ∈ f.members .top := htop ▸ hn
      exact lt_size_of_mem hf hmem
  | @under k _ hk hn =>
      have hne : k ≠ m := by
        rintro rfl
        obtain ⟨l, hl, hlleaf⟩ := isLeaf_of_mem_children hg (hdone.keeps k i hm) hfile hn
        rw [hj, Option.some.injEq] at hl
        rw [← hl, hleaf] at hlleaf
        exact absurd hlleaf (by simp)
      have hchildren : g.members (.under k) = f.members (.under k) :=
        hdone.frame _ (by simpa using hne)
      rw [children, hchildren] at hn
      exact lt_size_of_mem hf hn

end Reconciled

/-! ## While the manifests stay -/

section SameManifests

variable {w : Workspace} {named : String → String → Prop} {r s m n : ItemNo} {i j : Item}

/-- The directory that an item stands for: its own if it is a directory, else that of its file. -/
def directoryOf (i : Item) : String :=
  if i.kind.isRoot || i.kind == .package then i.location else directoryPart i.location

theorem directoryOf_of_directory (hk : i.kind.isRoot = true ∨ i.kind = .package) :
    directoryOf i = i.location := by
  rw [directoryOf, if_pos]
  rcases hk with hk | hk
  · rw [hk]
    rfl
  · rw [hk]
    rfl

theorem directoryOf_of_file_or_leaf (hk : i.kind = .file ∨ i.kind.isLeaf = true) :
    directoryOf i = directoryPart i.location := by
  rw [directoryOf, if_neg]
  rcases hk with hk | hk
  · rw [hk]
    decide
  · cases hkind : i.kind <;> rw [hkind] at hk <;> first | decide | exact absurd hk (by decide)

/-- The top item above an item is a home of its directory. -/
theorem IsOrderly.exists_home
    (h : f.IsOrderly cwd (Belongs c (.ofManifests w c named) folders)) (hn : f.IsBelow r n)
    (hi : f.item? n = some i) :
    r ∈ f.top ∧ ∃ p, f.item? r = some p ∧ p.IsHome w c folders (directoryOf i) := by
  induction hn generalizing i with
  | top htop =>
      -- an item at the top is its own root
      have hroot : i.kind.isRoot = true ∧
          (Judgement.ofManifests w c named).IsRoot folders i.kind i.location i.label := by
        rcases h.stands (.top htop) hi with ⟨-, hfits⟩ | ⟨k, p, -, hchild, -⟩
        · cases hfits with
          | root hroot => exact ⟨hroot.isRoot, hroot⟩
        · exact absurd hchild (h.consistent.not_mem_children htop k)
      rw [directoryOf_of_directory (Or.inl hroot.1)]
      exact ⟨htop, i, hi, .of_isRoot (h.genuine _ i hi).location hroot.2⟩
  | @child m n hm hchild ih =>
      obtain ⟨j, hj⟩ := h.exists_item_of_inTree hm.inTree
      obtain ⟨htop, p, hp, hhome⟩ := ih hj
      refine ⟨htop, p, hp, ?_⟩
      obtain ⟨k, hk, hfits⟩ := h.of_mem_children hchild hj
      rw [hi, Option.some.injEq] at hk
      subst hk
      cases hfits with
      | package hr hik hreach hne howns =>
          rw [directoryOf_of_directory (Or.inr hik)]
          -- the parent is the top item itself
          have hrm := hm.eq_of_mem_top h.consistent (h.root_stands hm.inTree hj hr).1
          rw [← hrm, hp, Option.some.injEq] at hj
          subst hj
          exact ⟨hhome.kind, hhome.location, hreach, Eq.symm howns⟩
      | file hjk hik hname _ hloc =>
          rw [directoryOf_of_file_or_leaf (Or.inl hik), hloc,
            directoryPart_below (h.genuine m j hj).location hname]
          rwa [directoryOf_of_directory hjk] at hhome
      | leaf hjk hik hloc =>
          rw [directoryOf_of_file_or_leaf (Or.inr hik), hloc]
          rwa [directoryOf_of_file_or_leaf (Or.inl hjk)] at hhome

/-- Items with one identifier stand below one top item, unless their directory is shared. -/
theorem IsOrderly.top_eq (h : f.IsOrderly cwd (Belongs c (.ofManifests w c named) folders))
    (hm : f.IsBelow r m) (hn : f.IsBelow s n) (hi : f.item? m = some i) (hj : f.item? n = some j)
    (hdirectory : directoryOf i = directoryOf j)
    (hshared : ¬ w.IsShared c folders (directoryOf i)) : r = s := by
  obtain ⟨hr, p, hp, hhome⟩ := h.exists_home hm hi
  obtain ⟨hs, q, hq, hhome'⟩ := h.exists_home hn hj
  -- both top items are homes of the one directory
  obtain ⟨hkind, hlocation⟩ := hhome.unique (hdirectory ▸ hhome') hshared
  have hleaf : p.kind.isLeaf = false := by
    rcases hhome.kind with hk | ⟨hk, -⟩ <;> rw [hk] <;> rfl
  have hname : p.name = q.name := by
    rw [h.name_eq_none hp hleaf, h.name_eq_none hq (hkind ▸ hleaf)]
  have hmem : ∀ k ∈ f.top, k ∈ f.members .top := fun _ hk => hk
  exact h.eq_of_mem (hmem r hr) (hmem s hs) hp hq hkind hlocation hname

/-- If no directory is shared, the identifiers in the tree are unique. -/
theorem IsOrderly.eq_of_idOf? (h : f.IsOrderly cwd (Belongs c (.ofManifests w c named) folders))
    (hshared : ∀ d, ¬ w.IsShared c folders d) (hm : f.InTree m) (hn : f.InTree n)
    (hid : f.idOf? m = f.idOf? n) : m = n := by
  obtain ⟨r, hr⟩ := inTree_iff_isBelow.mp hm
  obtain ⟨s, hs⟩ := inTree_iff_isBelow.mp hn
  obtain ⟨i, hi⟩ := h.exists_item_of_inTree hm
  obtain ⟨j, hj⟩ := h.exists_item_of_inTree hn
  have hij : i.id = j.id := by
    rwa [idOf?, idOf?, hi, hj, Option.map_some, Option.map_some, Option.some.injEq] at hid
  obtain ⟨hlocation, hkind, -⟩ := (h.genuine m i hi).eq_of_id (h.genuine n j hj) hij
  have hdirectory : directoryOf i = directoryOf j := by
    rw [directoryOf, directoryOf, hlocation, hkind]
  have hrs := h.top_eq hr hs hi hj hdirectory (hshared _)
  subst hrs
  exact h.eq_of_isBelow hr hs hid

/-- If the directory of a file is not shared, the tree has one item for the file. -/
theorem IsOrderly.file_unique (h : f.IsOrderly cwd (Belongs c (.ofManifests w c named) folders))
    (hm : f.InTree m) (hn : f.InTree n) (hi : f.item? m = some i) (hj : f.item? n = some j)
    (hik : i.kind = .file) (hjk : j.kind = .file) (hlocation : i.location = j.location)
    (hshared : ¬ w.IsShared c folders (directoryPart i.location)) : m = n := by
  obtain ⟨r, hr⟩ := inTree_iff_isBelow.mp hm
  obtain ⟨s, hs⟩ := inTree_iff_isBelow.mp hn
  have hdirectory := directoryOf_of_file_or_leaf (Or.inl hik)
  have hsame : directoryOf i = directoryOf j := by
    rw [hdirectory, directoryOf_of_file_or_leaf (Or.inl hjk), hlocation]
  have hrs := h.top_eq hr hs hi hj hsame (hdirectory ▸ hshared)
  subst hrs
  exact h.file_eq hr hs hi hj hik hjk hlocation

end SameManifests

end Forest

end TestAtlas
