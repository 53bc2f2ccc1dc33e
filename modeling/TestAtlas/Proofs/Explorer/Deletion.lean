import TestAtlas.Proofs.Explorer.Home
import TestAtlas.Proofs.Explorer.Removal
import TestAtlas.Proofs.Explorer.Shape
import TestAtlas.Proofs.Tree.Cut

/-!
# Deleting a path

When a path is deleted, the packages and files at or below it are doomed.  They are pruned in the
order of the walk, which comes by a package before it comes by its files, so an item that stands
below a doomed one is gone when its turn comes.  A package outside the path is dropped when the one
file that stands below it is doomed, and that file has the path itself as its location.  So the
tree loses the doomed items, what stands below them, and the packages that are emptied, and the
answer lists what was taken out in this order: `Session.Arises.fileDeleted_effect`.
-/

namespace TestAtlas

open TestAtlas.Path

namespace Forest

/-- The item is a package or a file of the tree, at or below a location. -/
structure IsDoomed (f : Forest) (cwd target : String) (n : ItemNo) : Prop where
  inTree : f.InTree n
  within : ∃ i, f.item? n = some i ∧ (i.kind = .package ∨ i.kind = .file) ∧
    isWithin cwd i.location target = true

/-- The item is a package of the tree, not at or below a location, that loses all its children. -/
structure IsEmptied (f : Forest) (cwd target : String) (m : ItemNo) : Prop where
  inTree : f.InTree m
  outside : ∃ p, f.item? m = some p ∧ p.kind = .package ∧ isWithin cwd p.location target = false
  nonempty : f.children m ≠ []
  doomed : ∀ n ∈ f.children m, f.IsDoomed cwd target n

/-- The packages and files at or below a location that are not held by another one of them. -/
def outermostWithin (f : Forest) (cwd target : String) : List ItemNo :=
  (f.containersWithin cwd target).filter fun n =>
    (f.parent? n).all (· ∉ f.containersWithin cwd target)

/-- The package above an item that holds nothing else, if there is one. -/
def emptiedAbove (f : Forest) (n : ItemNo) : List ItemNo :=
  (f.parent? n).toList.filter fun m =>
    (f.item? m).any (fun p => p.kind == .package) && (f.children m).all (· == n)

/-- What is taken out when items are pruned that are not below one another. -/
def takenOut (f : Forest) (ns : List ItemNo) : List ItemNo :=
  ns.flatMap fun n => n :: f.emptiedAbove n

variable {cwd target : String} {c : Conventions} {J : Judgement} {folders : List String}
  {f g : Forest} {k m n : ItemNo} {p : Item}

/-! ## What is doomed -/

theorem mem_containersWithin_iff (h : f.IsOrderly cwd (Belongs c J folders)) :
    n ∈ f.containersWithin cwd target ↔ f.IsDoomed cwd target n := by
  rw [containersWithin, List.mem_filter, mem_walk_top_iff h Belongs.level_lt, Option.any_eq_true]
  simp only [Bool.and_eq_true, Bool.or_eq_true, beq_iff_eq]
  exact ⟨fun hn => ⟨hn.1, hn.2⟩, fun hn => ⟨hn.inTree, hn.within⟩⟩

/-- A doomed item stands below a root, or it is a file of a package. -/
theorem IsDoomed.parent (h : f.IsOrderly cwd (Belongs c J folders))
    (hn : f.IsDoomed cwd target n) : ∃ m p, f.InTree m ∧ n ∈ f.children m ∧ f.item? m = some p ∧
      (p.kind.isRoot = true ∨ p.kind = .package) := by
  obtain ⟨hn, i, hi, hkind | hkind, -⟩ := hn
  · obtain ⟨m, r, hm, hmem, hr, hroot, -⟩ := h.package_stands hn hi hkind
    exact ⟨m, r, hm, hmem, hr, Or.inl hroot⟩
  · obtain ⟨m, p, hm, hmem, hp, hpkind, -⟩ := h.file_stands hn hi hkind
    exact ⟨m, p, hm, hmem, hp, hpkind⟩

theorem IsDoomed.not_mem_top (h : f.IsOrderly cwd (Belongs c J folders))
    (hn : f.IsDoomed cwd target n) : n ∉ f.top := by
  obtain ⟨m, -, -, hmem, -⟩ := hn.parent h
  exact fun htop => h.consistent.not_mem_children htop m hmem

/-- Above a doomed item stand its parent and a top item at most. -/
theorem IsDoomed.cases_above (h : f.IsOrderly cwd (Belongs c J folders))
    (hn : f.IsDoomed cwd target n) (hk : f.AtOrBelow k n) :
    k = n ∨ n ∈ f.children k ∨ k ∈ f.top := by
  obtain ⟨m, p, hm, hmem, hp, hkind⟩ := hn.parent h
  rcases hk.of_child h.consistent hmem with rfl | hk
  · exact Or.inl rfl
  rcases hkind with hroot | hpackage
  · have htop := (h.root_stands hm hp hroot).1
    rw [hk.eq_of_mem_top h.consistent htop]
    exact Or.inr (Or.inl hmem)
  · obtain ⟨r, q, hr, hmem', hq, hroot, -⟩ := h.package_stands hm hp hpackage
    rcases hk.of_child h.consistent hmem' with rfl | hk
    · exact Or.inr (Or.inl hmem)
    · have htop := (h.root_stands hr hq hroot).1
      exact Or.inr (Or.inr (hk.eq_of_mem_top h.consistent htop ▸ htop))

/-- A package outside the path has at most one doomed child, the file at the path itself. -/
theorem IsDoomed.eq_of_mem_children (h : f.IsOrderly cwd (Belongs c J folders))
    (htarget : IsLocation target) (hp : f.item? m = some p) (hpackage : p.kind = .package)
    (hout : isWithin cwd p.location target = false) (hn : f.IsDoomed cwd target n)
    (hk : f.IsDoomed cwd target k) (hnm : n ∈ f.children m) (hkm : k ∈ f.children m) : n = k := by
  have hat : ∀ l, f.IsDoomed cwd target l → l ∈ f.children m →
      ∃ i, f.item? l = some i ∧ i.kind = .file ∧ i.location = target := by
    rintro l ⟨-, i, hi, -, hin⟩ hl
    obtain ⟨j, hj, hfile, hdirectory⟩ := isFile_of_mem_children h hp hpackage hl
    rw [hi, Option.some.injEq] at hj
    subst hj
    refine ⟨i, hi, hfile, ?_⟩
    -- otherwise the directory were at or below the path as well
    by_contra hne
    have hlocation := (h.genuine l i hi).location
    rw [isWithin_of_isLocation hlocation htarget] at hin
    rw [isWithin_of_isLocation (h.genuine m p hp).location htarget, ← hdirectory,
      isAtOrBelow_directoryPart hlocation htarget hin hne] at hout
    exact absurd hout (by simp)
  obtain ⟨i, hi, hikind, hilocation⟩ := hat n hn hnm
  obtain ⟨j, hj, hjkind, hjlocation⟩ := hat k hk hkm
  refine h.eq_of_mem hnm hkm hi hj (hikind.trans hjkind.symm) (hilocation.trans hjlocation.symm) ?_
  rw [h.name_eq_none hi (by rw [hikind]; rfl), h.name_eq_none hj (by rw [hjkind]; rfl)]

/-! ## What is outermost -/

/-- A doomed item is outermost if it is not below another doomed item. -/
theorem mem_outermost_iff (h : f.IsOrderly cwd (Belongs c J folders)) :
    n ∈ f.outermostWithin cwd target ↔ f.IsDoomed cwd target n ∧
      ∀ k, f.IsDoomed cwd target k → f.AtOrBelow k n → k = n := by
  rw [outermostWithin, List.mem_filter, mem_containersWithin_iff h, Option.all_eq_true]
  simp only [h.consistent.parent?_eq_some_iff, decide_eq_true_eq, mem_containersWithin_iff h]
  refine and_congr_right fun hn => ⟨fun hparent k hk hbelow => ?_, fun honly m hm hdoomed => ?_⟩
  · rcases hn.cases_above h hbelow with rfl | hmem | htop
    · rfl
    · exact absurd hk (hparent k hmem)
    · exact absurd htop (hk.not_mem_top h)
  · exact (h.isRanked Belongs.level_lt).ne_of_mem_children hm
      (honly m hdoomed (AtOrBelow.self.child hm))

/-- An item that holds a doomed one is itself outermost if it is doomed. -/
theorem IsDoomed.mem_outermost (h : f.IsOrderly cwd (Belongs c J folders))
    (hm : f.IsDoomed cwd target m) (hn : f.IsDoomed cwd target n) (hmem : n ∈ f.children m) :
    m ∈ f.outermostWithin cwd target := by
  refine (mem_outermost_iff h).mpr ⟨hm, fun k hk hbelow => ?_⟩
  rcases hn.cases_above h (hbelow.child hmem) with rfl | hchild | htop
  · exact absurd hbelow ((h.isRanked Belongs.level_lt).not_atOrBelow hmem)
  · exact h.consistent.parent_unique hchild hmem
  · exact absurd htop (hk.not_mem_top h)

/-- A doomed item that is not outermost is held by one that is. -/
theorem IsDoomed.exists_outermost (h : f.IsOrderly cwd (Belongs c J folders))
    (hn : f.IsDoomed cwd target n) (hnot : n ∉ f.outermostWithin cwd target) :
    ∃ m ∈ f.outermostWithin cwd target, n ∈ f.children m := by
  rw [mem_outermost_iff h] at hnot
  push Not at hnot
  obtain ⟨k, hk, hbelow, hne⟩ := hnot hn
  rcases hn.cases_above h hbelow with heq | hmem | htop
  · exact absurd heq hne
  · exact ⟨k, hk.mem_outermost h hn hmem, hmem⟩
  · exact absurd htop (hk.not_mem_top h)

/-- What holds an outermost item is not doomed. -/
theorem not_isDoomed_of_holds_outermost (h : f.IsOrderly cwd (Belongs c J folders))
    (hn : n ∈ f.outermostWithin cwd target) (hmem : n ∈ f.children m) :
    ¬ f.IsDoomed cwd target m := by
  intro hm
  exact (h.isRanked Belongs.level_lt).ne_of_mem_children hmem
    (((mem_outermost_iff h).mp hn).2 m hm (AtOrBelow.self.child hmem))

/-! ## What is emptied -/

/-- A package of the tree that is not doomed lies outside the path. -/
theorem isWithin_eq_false (hm : f.InTree m) (hp : f.item? m = some p) (hpackage : p.kind = .package)
    (hnot : ¬ f.IsDoomed cwd target m) : isWithin cwd p.location target = false := by
  rw [← Bool.not_eq_true]
  exact fun hin => hnot ⟨hm, p, hp, Or.inl hpackage, hin⟩

theorem emptiedAbove_eq (h : f.parent? n = some m) : f.emptiedAbove n =
    if (f.item? m).any (fun p => p.kind == .package) && (f.children m).all (· == n) then [m]
    else [] := by
  rw [emptiedAbove, h, Option.toList_some, List.filter_singleton, cond_eq_ite]

theorem mem_emptiedAbove_iff : m ∈ f.emptiedAbove n ↔ f.parent? n = some m ∧
    (∃ p, f.item? m = some p ∧ p.kind = .package) ∧ ∀ k ∈ f.children m, k = n := by
  simp only [emptiedAbove, List.mem_filter, Option.mem_toList, Bool.and_eq_true,
    Option.any_eq_true, beq_iff_eq, List.all_eq_true]

/-- The packages that are dropped with outermost items are those that are emptied. -/
theorem mem_emptiedAbove_iff_isEmptied (h : f.IsOrderly cwd (Belongs c J folders))
    (htarget : IsLocation target) (hn : n ∈ f.outermostWithin cwd target) :
    m ∈ f.emptiedAbove n ↔ f.IsEmptied cwd target m ∧ n ∈ f.children m := by
  have hdoomed := ((mem_outermost_iff h).mp hn).1
  rw [mem_emptiedAbove_iff, h.consistent.parent?_eq_some_iff]
  constructor
  · rintro ⟨hmem, ⟨p, hp, hpackage⟩, hall⟩
    obtain ⟨m', -, hm, hmem', -⟩ := hdoomed.parent h
    obtain rfl := h.consistent.parent_unique hmem' hmem
    have hout := isWithin_eq_false hm hp hpackage (not_isDoomed_of_holds_outermost h hn hmem)
    exact ⟨⟨hm, ⟨p, hp, hpackage, hout⟩, List.ne_nil_of_mem hmem, fun k hk => hall k hk ▸ hdoomed⟩,
      hmem⟩
  · rintro ⟨⟨-, ⟨p, hp, hpackage, hout⟩, -, hall⟩, hmem⟩
    exact ⟨hmem, ⟨p, hp, hpackage⟩, fun k hk =>
      (hall k hk).eq_of_mem_children h htarget hp hpackage hout hdoomed hk hmem⟩

theorem IsEmptied.not_isDoomed (hm : f.IsEmptied cwd target m) : ¬ f.IsDoomed cwd target m := by
  obtain ⟨-, ⟨p, hp, -, hout⟩, -⟩ := hm
  rintro ⟨-, i, hi, -, hin⟩
  rw [hp, Option.some.injEq] at hi
  rw [hi, hin] at hout
  exact absurd hout (by simp)

/-- The children of a package that is emptied are outermost. -/
theorem IsEmptied.mem_outermost (h : f.IsOrderly cwd (Belongs c J folders))
    (hm : f.IsEmptied cwd target m) (hn : n ∈ f.children m) :
    n ∈ f.outermostWithin cwd target := by
  by_contra hnot
  obtain ⟨k, hk, hmem⟩ := (hm.doomed n hn).exists_outermost h hnot
  obtain rfl := h.consistent.parent_unique hmem hn
  exact hm.not_isDoomed ((mem_outermost_iff h).mp hk).1

/-- What is taken out is outermost, or emptied and above an outermost item. -/
theorem mem_takenOut_iff {ns : List ItemNo} :
    k ∈ f.takenOut ns ↔ k ∈ ns ∨ ∃ n ∈ ns, k ∈ f.emptiedAbove n := by
  simp only [takenOut, List.mem_flatMap, List.mem_cons]
  constructor
  · rintro ⟨n, hn, rfl | hk⟩
    · exact Or.inl hn
    · exact Or.inr ⟨n, hn, hk⟩
  · rintro (hk | ⟨n, hn, hk⟩)
    · exact ⟨k, hk, Or.inl rfl⟩
    · exact ⟨n, hn, Or.inr hk⟩

theorem takenOut_append (ns ms : List ItemNo) :
    f.takenOut (ns ++ ms) = f.takenOut ns ++ f.takenOut ms :=
  List.flatMap_append

/-- What is below something that was taken out is below a doomed item, or it is a package that was
emptied. -/
theorem not_below_takenOut_iff (h : f.IsOrderly cwd (Belongs c J folders))
    (htarget : IsLocation target) :
    (∀ k ∈ f.takenOut (f.outermostWithin cwd target), ¬ f.AtOrBelow k n) ↔
      (∀ k, f.IsDoomed cwd target k → ¬ f.AtOrBelow k n) ∧ ¬ f.IsEmptied cwd target n := by
  constructor
  · intro hnone
    refine ⟨fun k hk hbelow => ?_, fun hempty => ?_⟩
    · by_cases hout : k ∈ f.outermostWithin cwd target
      · exact hnone k (mem_takenOut_iff.mpr (Or.inl hout)) hbelow
      · obtain ⟨m, hm, hmem⟩ := hk.exists_outermost h hout
        exact hnone m (mem_takenOut_iff.mpr (Or.inl hm)) ((AtOrBelow.self.child hmem).trans hbelow)
    · obtain ⟨l, hl⟩ := List.exists_mem_of_ne_nil _ hempty.nonempty
      have hout := hempty.mem_outermost h hl
      have hmem := (mem_emptiedAbove_iff_isEmptied h htarget hout).mpr ⟨hempty, hl⟩
      exact hnone n (mem_takenOut_iff.mpr (Or.inr ⟨l, hout, hmem⟩)) .self
  · rintro ⟨hnone, hempty⟩ k hk hbelow
    rcases mem_takenOut_iff.mp hk with hk | ⟨l, hl, hk⟩
    · exact hnone k ((mem_outermost_iff h).mp hk).1 hbelow
    · have hemptied := ((mem_emptiedAbove_iff_isEmptied h htarget hl).mp hk).1
      rcases hbelow.cases_child with rfl | ⟨l', hl', hbelow'⟩
      · exact hempty hemptied
      · exact hnone l' (hemptied.doomed l' hl') hbelow'

/-! ## The run -/

/-- When an outermost item is taken out, the package above it is empty if that has held nothing else
from the start: what it has lost before would be doomed as well. -/
theorem isEmptyPackage_release (h : f.IsOrderly cwd (Belongs c J folders))
    (htarget : IsLocation target) {cut : List ItemNo}
    (hfiles : ∀ k ∈ cut, ∀ i, f.item? k = some i → i.kind = .file → f.IsDoomed cwd target k)
    (hn : n ∈ f.outermostWithin cwd target) (hm : f.InTree m)
    (hmem : n ∈ f.children m) (hcut : f.IsCut (cut ++ [n]) g) :
    g.isEmptyPackage m =
      ((f.item? m).any (fun p => p.kind == .package) && (f.children m).all (· == n)) := by
  obtain ⟨p, hp⟩ := h.exists_item_of_inTree hm
  rw [isEmptyPackage, hcut.items, hp, Option.any_some]
  cases hkind : p.kind == .package with
  | false => rfl
  | true =>
      have hpackage : p.kind = .package := by simpa using hkind
      have hout := isWithin_eq_false hm hp hpackage (not_isDoomed_of_holds_outermost h hn hmem)
      rw [Bool.true_and, Bool.true_and, Bool.eq_iff_iff, List.isEmpty_iff, children, hcut.members,
        List.filter_eq_nil_iff, List.all_eq_true]
      refine forall₂_congr fun k hk => ?_
      rw [decide_eq_true_eq, not_not, List.mem_append, List.mem_singleton, beq_iff_eq,
        or_iff_right_of_imp]
      intro hkcut
      obtain ⟨j, hj, hfile, -⟩ := isFile_of_mem_children h hp hpackage hk
      exact (hfiles k hkcut j hj hfile).eq_of_mem_children h htarget hp hpackage hout
        ((mem_outermost_iff h).mp hn).1 hk hmem

/-- An outermost item that is still in the tree is pruned, with the package that it leaves empty. -/
theorem prune_outermost (h : f.IsOrderly cwd (Belongs c J folders)) (htarget : IsLocation target)
    {cut : List ItemNo} (hcut : f.IsCut cut g)
    (hfiles : ∀ k ∈ cut, ∀ i, f.item? k = some i → i.kind = .file → f.IsDoomed cwd target k)
    (hn : n ∈ f.outermostWithin cwd target) (hg : g.InTree n) :
    ∃ g', g.prune n = .ok ((n :: f.emptiedAbove n).filterMap f.idOf?, g') ∧
      f.IsCut (cut ++ n :: f.emptiedAbove n) g' := by
  have hconsistent := hcut.isConsistent h.consistent
  have hdoomed := ((mem_outermost_iff h).mp hn).1
  obtain ⟨m, p, hm, hmem, hp, -⟩ := hdoomed.parent h
  have hparent : f.parent? n = some m := (h.consistent.parent?_eq_some_iff n m).mpr hmem
  have hheld : g.holder? n = some (.under m) :=
    (hcut.holder?_eq h.consistent hg).trans ((h.consistent.holds (.under m) n).mp hmem)
  have hmemg : n ∈ g.children m := (hconsistent.holds (.under m) n).mpr hheld
  -- nothing above the item was taken out, so its parent is still in the tree
  have hstays : g.InTree m := by
    refine (hcut.inTree_iff h.consistent).mpr ⟨hm, fun a ha hbelow => ?_⟩
    exact ((hcut.inTree_iff h.consistent).mp hg).2 a ha (hbelow.child hmem)
  obtain ⟨q, hq⟩ := hstays.exists_mem
  have hne := (h.isRanked Belongs.level_lt).ne_of_mem_children hmem
  have hcut' := hcut.release h.consistent hmemg
  obtain ⟨i, hi⟩ := h.exists_item_of_inTree hdoomed.inTree
  have hid : f.idOf? n = some i.id := by rw [idOf?, hi, Option.map_some]
  have hidm : f.idOf? m = some p.id := by rw [idOf?, hp, Option.map_some]
  rw [prune_of_mem_children hconsistent hmemg hq hne, hcut.idOf?, hcut.idOf?, hid, hidm,
    isEmptyPackage_release h htarget hfiles hn hm hmem hcut', emptiedAbove_eq hparent]
  split
  · refine ⟨(g.release (.under m) n).release q m, by simp [hid, hidm], ?_⟩
    simpa using hcut'.release h.consistent (mem_release.mpr ⟨hq, fun _ => hne⟩)
  · exact ⟨g.release (.under m) n, by simp [hid], hcut'⟩

/-- What was taken out for the items before an outermost one is not above that. -/
theorem inTree_of_outermost (h : f.IsOrderly cwd (Belongs c J folders))
    (htarget : IsLocation target) {done : List ItemNo}
    (hdone : ∀ d ∈ done, d ∈ f.outermostWithin cwd target)
    (hcut : f.IsCut (f.takenOut done) g)
    (hn : n ∈ f.outermostWithin cwd target) (hnew : n ∉ done) : g.InTree n := by
  obtain ⟨hdoomed, honly⟩ := (mem_outermost_iff h).mp hn
  refine (hcut.inTree_iff h.consistent).mpr ⟨hdoomed.inTree, fun k hk hbelow => ?_⟩
  rcases mem_takenOut_iff.mp hk with hk | ⟨d, hd, hk⟩
  · have hkdoomed := ((mem_outermost_iff h).mp (hdone k hk)).1
    exact hnew (honly k hkdoomed hbelow ▸ hk)
  · have hempty := ((mem_emptiedAbove_iff_isEmptied h htarget (hdone d hd)).mp hk).1
    rcases hbelow.cases_child with rfl | ⟨l, hl, hln⟩
    · exact hempty.not_isDoomed hdoomed
    · -- the one child of the package was taken out before
      have hld := (mem_emptiedAbove_iff.mp hk).2.2 l hl
      have hlin := honly l (hempty.doomed l hl) hln
      exact hnew (hlin ▸ hld ▸ hd)

/-- A file that was taken out is doomed. -/
theorem isDoomed_of_mem_takenOut (h : f.IsOrderly cwd (Belongs c J folders)) {done : List ItemNo}
    (hdone : ∀ d ∈ done, d ∈ f.outermostWithin cwd target)
    (hk : k ∈ f.takenOut done) {i : Item} (hi : f.item? k = some i) (hfile : i.kind = .file) :
    f.IsDoomed cwd target k := by
  rcases mem_takenOut_iff.mp hk with hk | ⟨d, -, hk⟩
  · exact ((mem_outermost_iff h).mp (hdone k hk)).1
  · obtain ⟨-, ⟨p, hp, hpackage⟩, -⟩ := mem_emptiedAbove_iff.mp hk
    rw [hi, Option.some.injEq] at hp
    rw [← hp, hfile] at hpackage
    exact absurd hpackage (by decide)

/-- An item of the list does not come before the one that holds it. -/
theorem mem_of_holds (h : f.IsOrderly cwd (Belongs c J folders)) {done rest : List ItemNo}
    (hall : done ++ n :: rest = f.containersWithin cwd target)
    (hm : m ∈ f.containersWithin cwd target) (hchild : n ∈ f.children m) : m ∈ done := by
  have hranked := h.isRanked Belongs.level_lt
  have horder : (done ++ n :: rest).Pairwise fun a b => ¬ f.AtOrBelow b a :=
    hall ▸ (hranked.pairwise_walk_top h.consistent).filter _
  obtain ⟨-, hlater, -⟩ := List.pairwise_append.mp horder
  rw [← hall] at hm
  rcases List.mem_append.mp hm with hm | hm
  · exact hm
  · rcases List.mem_cons.mp hm with rfl | hm
    · exact absurd rfl (hranked.ne_of_mem_children hchild)
    · exact absurd (AtOrBelow.self.child hchild) ((List.pairwise_cons.mp hlater).1 m hm)

/-- Pruning the doomed items that come after some takes out those that are outermost, each with the
package that it empties. -/
theorem pruneAll_doomed (h : f.IsOrderly cwd (Belongs c J folders)) (htarget : IsLocation target)
    {done rest : List ItemNo} (hall : done ++ rest = f.containersWithin cwd target)
    (hcut : f.IsCut (f.takenOut (done.filter (· ∈ f.outermostWithin cwd target))) g) :
    ∃ g', g.pruneAll rest =
        .ok ((f.takenOut (rest.filter (· ∈ f.outermostWithin cwd target))).filterMap f.idOf?, g') ∧
      f.IsCut (f.takenOut ((done ++ rest).filter (· ∈ f.outermostWithin cwd target))) g' := by
  induction rest generalizing done g with
  | nil => exact ⟨g, rfl, by simpa using hcut⟩
  | cons n rest ih =>
      have hattached : g.isAttached n = true ↔ g.InTree n :=
        (hcut.isRanked (h.isRanked Belongs.level_lt)).isAttached_iff
          (hcut.isConsistent h.consistent) n
      have hdone : ∀ d ∈ done.filter (· ∈ f.outermostWithin cwd target),
          d ∈ f.outermostWithin cwd target :=
        fun d hd => of_decide_eq_true (List.mem_filter.mp hd).2
      have hnext : (done ++ [n]) ++ rest = f.containersWithin cwd target := by simpa using hall
      rw [pruneAll]
      by_cases hn : n ∈ f.outermostWithin cwd target
      · have hnew : n ∉ done.filter (· ∈ f.outermostWithin cwd target) := by
          have hnodup : (done ++ n :: rest).Nodup := by
            rw [hall]
            exact ((h.isRanked Belongs.level_lt).nodup_walk_top h.consistent).filter _
          exact fun hmem => (List.nodup_append.mp hnodup).2.2 n (List.mem_of_mem_filter hmem) n
            List.mem_cons_self rfl
        have hg := inTree_of_outermost h htarget hdone hcut hn hnew
        obtain ⟨g', hprune, hcut'⟩ := prune_outermost h htarget hcut
          (fun k hk i hi hfile => isDoomed_of_mem_takenOut h hdone hk hi hfile) hn hg
        obtain ⟨g'', hrest, hcut''⟩ := ih hnext (g := g') (by
          rw [List.filter_append, takenOut_append]
          simpa [takenOut, hn] using hcut')
        refine ⟨g'', ?_, by simpa using hcut''⟩
        rw [if_pos (hattached.mpr hg), hprune, List.filter_cons_of_pos (by simpa using hn)]
        simp only [bind, Except.bind, hrest, pure, Except.pure, takenOut, List.flatMap_cons,
          List.filterMap_append]
      · -- the item that holds it has been taken out before
        have hdoomed := (mem_containersWithin_iff h).mp (show n ∈ f.containersWithin cwd target from
          hall ▸ by simp)
        obtain ⟨m, hm, hchild⟩ := hdoomed.exists_outermost h hn
        have hmdone := mem_of_holds h hall (List.mem_of_mem_filter hm) hchild
        have hgone : ¬ g.InTree n := by
          intro hg
          refine ((hcut.inTree_iff h.consistent).mp hg).2 m ?_ (AtOrBelow.self.child hchild)
          exact mem_takenOut_iff.mpr (Or.inl (List.mem_filter.mpr ⟨hmdone, decide_eq_true hm⟩))
        obtain ⟨g', hrest, hcut'⟩ := ih hnext (g := g) (by
          simpa [List.filter_append, hn] using hcut)
        refine ⟨g', ?_, by simpa using hcut'⟩
        rw [if_neg fun hg => hgone (hattached.mp hg), hrest,
          List.filter_cons_of_neg (by simpa using hn)]

/-! ## The effect of a deletion -/

/-- What the deletion of a path does to the tree.  The outermost of the doomed items are listed in
the order in which the walk from the top comes by them. -/
structure HasLost (f : Forest) (cwd target : String) (g : Forest) (ids : List String)
    (outermost : List ItemNo) : Prop where
  /-- No item changes, whether it is in the tree or not. -/
  items : ∀ n, g.item? n = f.item? n
  /-- The tree loses what is at or below a doomed item, and the packages that are emptied. -/
  inTree : ∀ n, g.InTree n ↔ f.InTree n ∧
    (∀ k, f.IsDoomed cwd target k → ¬ f.AtOrBelow k n) ∧ ¬ f.IsEmptied cwd target n
  roots : ∀ n i, f.InTree n → f.item? n = some i → i.kind.isRoot = true → g.InTree n
  /-- What stays is held where it was, among the others that stay there in their old order. -/
  holder : ∀ n, g.InTree n → g.holder? n = f.holder? n
  top : g.top = f.top
  attached : ∀ n, g.isAttached n = true ↔ g.InTree n
  children : ∀ n, g.InTree n → g.children n = (f.children n).filter g.isAttached
  /-- The outermost items are the doomed ones that are not below another doomed one. -/
  mem_outermost : ∀ n, n ∈ outermost ↔ f.IsDoomed cwd target n ∧
    ∀ k, f.IsDoomed cwd target k → f.AtOrBelow k n → k = n
  order : List.Sublist outermost (f.walk .top)
  nodup : outermost.Nodup
  /-- The answer names each of them, and behind it the package that is emptied with it. -/
  ids : ids.map some = (outermost.flatMap fun n => n :: f.emptiedAbove n).map f.idOf?
  mem_emptiedAbove : ∀ n ∈ outermost, ∀ m,
    m ∈ f.emptiedAbove n ↔ f.IsEmptied cwd target m ∧ n ∈ f.children m

/-- A top item is neither doomed nor emptied. -/
theorem not_mem_takenOut_of_mem_top (h : f.IsOrderly cwd (Belongs c J folders)) (hn : n ∈ f.top) :
    n ∉ f.takenOut (f.outermostWithin cwd target) := by
  intro hmem
  rcases mem_takenOut_iff.mp hmem with hmem | ⟨d, -, hmem⟩
  · exact ((mem_outermost_iff h).mp hmem).1.not_mem_top h hn
  · obtain ⟨-, ⟨p, hp, hpackage⟩, -⟩ := mem_emptiedAbove_iff.mp hmem
    obtain ⟨m, -, -, hchild, -⟩ := h.package_stands (.top hn) hp hpackage
    exact h.consistent.not_mem_children hn m hchild

theorem pruneAll_effect (h : f.IsOrderly cwd (Belongs c J folders)) (htarget : IsLocation target) :
    ∃ ids g outermost, f.pruneAll (f.containersWithin cwd target) = .ok (ids, g) ∧
      f.HasLost cwd target g ids outermost := by
  have hranked := h.isRanked Belongs.level_lt
  have hfilter : (f.containersWithin cwd target).filter (· ∈ f.outermostWithin cwd target) =
      f.outermostWithin cwd target := by
    rw [outermostWithin]
    exact List.filter_congr fun n hn => by simp [hn]
  obtain ⟨g, hprune, hcut⟩ := pruneAll_doomed h htarget (g := f)
    (List.nil_append (f.containersWithin cwd target)) (by simpa [takenOut] using IsCut.refl f)
  rw [List.nil_append, hfilter] at hcut
  rw [hfilter] at hprune
  have htop : ∀ n ∈ f.top, n ∉ f.takenOut (f.outermostWithin cwd target) :=
    fun n hn => not_mem_takenOut_of_mem_top h hn
  have hmembers : g.top = f.top := by
    have hmembers := hcut.members .top
    rwa [members_top, members_top,
      List.filter_eq_self.mpr fun n hn => decide_eq_true (htop n hn)] at hmembers
  have hsize : ∀ n ∈ f.takenOut (f.outermostWithin cwd target), n < f.nodes.size := by
    intro n hn
    rcases mem_takenOut_iff.mp hn with hn | ⟨d, -, hn⟩
    · exact ((mem_outermost_iff h).mp hn).1.inTree.lt_size h.consistent
    · obtain ⟨-, ⟨p, hp, -⟩, -⟩ := mem_emptiedAbove_iff.mp hn
      exact lt_size_of_item? hp
  have hsublist : List.Sublist (f.outermostWithin cwd target) (f.walk .top) :=
    List.filter_sublist.trans List.filter_sublist
  refine ⟨_, g, f.outermostWithin cwd target, hprune, ?_⟩
  constructor
  case items => exact hcut.items
  case inTree =>
    intro n
    rw [hcut.inTree_iff h.consistent, not_below_takenOut_iff h htarget]
  case roots => exact fun n i hn hi hroot => .top (hmembers ▸ (h.root_stands hn hi hroot).1)
  case holder => exact fun n hn => hcut.holder?_eq h.consistent hn
  case top => exact hmembers
  case attached =>
    exact (hcut.isRanked hranked).isAttached_iff (hcut.isConsistent h.consistent)
  case children => exact fun n hn => hcut.children_eq h.consistent hranked hn
  case mem_outermost => exact fun n => mem_outermost_iff h
  case order => exact hsublist
  case nodup => exact hsublist.nodup (hranked.nodup_walk_top h.consistent)
  case ids => exact map_some_filterMap_idOf? hsize
  case mem_emptiedAbove =>
    exact fun n hn m => mem_emptiedAbove_iff_isEmptied h htarget hn

end Forest

/-- The deletion of a path has an effect on the tree and on the remembered texts. -/
theorem Explorer.remove_effect {w : Workspace} {J : Judgement} {e : Explorer}
    (h : e.IsOrderly w.cwd J) (hrooted : isRooted w.cwd.toList = true) (path : String) :
    ∃ ids e' outermost, e.remove w path = .ok (ids, e') ∧
      e.forest.HasLost w.cwd (canonical w.cwd path) e'.forest ids outermost ∧
      e'.documents = e.documents.filter fun d => !isWithin w.cwd d.1 (canonical w.cwd path) := by
  obtain ⟨ids, g, outermost, hprune, hlost⟩ :=
    Forest.pruneAll_effect h.forest (isLocation_canonical hrooted path)
  unfold remove
  simp only [hprune, bind, Except.bind]
  refine ⟨_, _, outermost, rfl, ?_, ?_⟩
  · split <;> exact hlost
  · split <;> rfl

/-- In every session that comes about while the files change in any way, the deletion of a path that
runs alone is answered.  The tree loses what is doomed and the packages that are emptied, and the
texts of documents at or below the path are forgotten. -/
theorem Session.Arises.fileDeleted_effect {cwd : String} {c : Conventions} {s : Session}
    {w : Workspace} (h : Session.Arises (fun w => w.IsInMemory ∧ w.cwd = cwd) c s)
    (hw : w.IsInMemory) (hcwd : w.cwd = cwd) (p : SymbolProvider) (path : String) :
    ∃ ids e' outermost, s.explorer.call w p (.fileDeleted path) = .ok (.removed ids, e') ∧
      s.explorer.forest.HasLost w.cwd (canonical w.cwd path) e'.forest ids outermost ∧
      ∀ document, e'.documents.get? document =
        if isWithin w.cwd document (canonical w.cwd path) then none
        else s.explorer.documents.get? document := by
  subst hcwd
  obtain ⟨ids, e', outermost, hremove, hlost, hdocuments⟩ :=
    Explorer.remove_effect h.isOrderly_loose.1.explorer hw.rooted path
  refine ⟨ids, e', outermost, ?_, hlost, fun document => ?_⟩
  · simp only [Explorer.call, Explorer.begin, hremove, bind, Except.bind, pure, Except.pure]
  · rw [hdocuments, s.explorer.documents.get?_filter_key
      fun document => !isWithin w.cwd document (canonical w.cwd path)]
    cases isWithin w.cwd document (canonical w.cwd path) <;> rfl

/-- The package of a deleted file leaves the tree with it if it holds no other file. -/
theorem Session.Arises.fileDeleted_effect_emptied :
    ∃ s w e' outermost, Session.Arises (fun w => w.IsInMemory ∧ w.cwd = "/") .usual s ∧
      Workspace.IsInMemory w ∧ w.cwd = "/" ∧ s.explorer.forest.children 0 = [1, 2] ∧
      s.explorer.call w .silent (.fileDeleted "/a/b/x_test.go") =
        .ok (.removed ["file:///a/b/x_test.go?file", "file:///a/b?package"], e') ∧
      e'.forest.children 0 = [2] ∧
      s.explorer.forest.HasLost "/" (canonical "/" "/a/b/x_test.go") e'.forest
        ["file:///a/b/x_test.go?file", "file:///a/b?package"] outermost := by
  let w := Workspace.holding "/" [("/a/go.mod", ""), ("/a/b/x_test.go", ""), ("/a/y_test.go", "")]
  have hw : w.IsInMemory := Workspace.isInMemory_holding (by decide) _
  let seen : Answer × Explorer → Option (List String) × List ItemNo := fun result =>
    match result.1 with
    | .removed ids => (some ids, result.2.forest.children 0)
    | _ => (none, [])
  have hview : ((ofExplorer (.start w .usual ["/a"])).run w .silent
      [.call .expandTop, .call (.expand 0), .call (.expand 1)]).toOption.map (fun s =>
        (s.explorer.forest.children 0,
          (s.explorer.call w .silent (.fileDeleted "/a/b/x_test.go")).toOption.map seen)) =
      some ([1, 2], some (some ["file:///a/b/x_test.go?file", "file:///a/b?package"], [2])) := by
    decide +kernel
  obtain ⟨s, hrun, hview⟩ := exists_ok_of_view hview
  obtain ⟨hchildren, hview⟩ := Prod.mk.inj hview
  have hs : Session.Arises (fun w => w.IsInMemory ∧ w.cwd = "/") .usual s :=
    (Session.Arises.start ["/a"] ⟨hw, rfl⟩).run ⟨hw, rfl⟩ .silent hrun
  obtain ⟨ids, e', outermost, hcall, hlost, -⟩ :=
    Session.Arises.fileDeleted_effect hs hw rfl .silent "/a/b/x_test.go"
  rw [hcall] at hview
  obtain ⟨hids, hrest⟩ := Prod.mk.inj (Option.some.inj hview)
  obtain rfl := Option.some.inj hids
  exact ⟨s, w, e', outermost, hs, hw, rfl, hchildren, hcall, hrest, hlost⟩

end TestAtlas
