import TestAtlas.Proofs.Workspace.Memory
import TestAtlas.Proofs.Workspace.Preorder

/-!
# Packages are a part of the walk

The search for packages does not enter a directory with another owner than the root.  Nothing is
lost by that, because below such a directory the owner of the root never comes back
(`nearestManifest_eq_of_below`).  So the packages of a root are what is left of the pre-order of the
whole walk when all that is no package is dropped: `rootChildren_eq_filter`.
-/

namespace TestAtlas

open TestAtlas.Path

namespace Workspace

/-- The directory lists a test file. -/
def holdsTest (w : Workspace) (c : Conventions) (d : String) : Bool :=
  (w.entries d).any fun e => e.2 == .file && c.isTestFile e.1

/-- The nearest manifest of the directory is that of the owner, and the directory lists a test
file. -/
def isPackage (w : Workspace) (c : Conventions) (owner : Owner) (d : String) : Bool :=
  w.nearestManifest c d = owner && w.holdsTest c d

variable {w : Workspace} {c : Conventions} {d p root : String} {owner : Owner}

theorem isEmpty_testFiles (w : Workspace) (c : Conventions) (d : String) :
    (c.testFiles d (w.entries d)).isEmpty = !w.holdsTest c d := by
  rw [Conventions.testFiles, holdsTest, List.isEmpty_map, Bool.eq_iff_iff]
  simp

/-- Between the root and a directory that belongs to the root, or to no module, nothing belongs to
anything else. -/
theorem nearestManifest_eq_of_below (hroot : IsLocation root)
    (howner : ∀ m, owner = some m → IsLocation m → m = root) (hd : IsLocation d)
    (hp : IsLocation p) (hdr : isAtOrBelow d root = true) (hpd : isAtOrBelow p d = true)
    (h : w.nearestManifest c p = owner) : w.nearestManifest c d = owner := by
  cases owner with
  | none => exact nearestManifest_eq_none_of_isAtOrBelow hp hd hpd h
  | some m =>
      obtain ⟨hm, -⟩ := (w.nearestManifest_eq_some_iff c hp).mp h
      obtain rfl := howner m rfl hm
      exact nearestManifest_of_between hroot hd hp hdr hpd (nearestManifest_self hp h) h

end Workspace

namespace Survey

variable {w : Workspace} {c : Conventions} {d root : String} {owner : Owner} {s : Survey}

theorem isKept_agrees (hw : w.IsInMemory) {owns : String → Owner → Prop}
    (hin : IsInherited w c owns) : IsKept w c (Agrees owns) :=
  fun _ path h => (ownerOf_agrees hw.rooted hin h path).2

section Enter

variable {deeper : List String → Survey → List String × Survey}

/-- One directory adds what is left of its part of the pre-order: nothing, if it is not entered. -/
theorem enter_eq_filter (hw : w.IsInMemory) (hd : IsLocation d) {below : List String}
    (hbelow : w.PreOrder c (c.subdirectories d (w.entries d)) below)
    (hprune : ∀ p, w.Walks c d p → w.nearestManifest c p = owner → w.nearestManifest c d = owner)
    (hdeeper : ∀ t : Survey, Agrees (fun d o => o = w.nearestManifest c d) t.owners →
      (deeper (c.subdirectories d (w.entries d)) t).1 = below.filter (w.isPackage c owner))
    {found : List String × Survey}
    (h : Agrees (fun d o => o = w.nearestManifest c d) found.2.owners) :
    (enter w c owner deeper found d).1 =
      found.1 ++ (d :: below).filter (w.isPackage c owner) := by
  obtain ⟨howner, hagrees⟩ :=
    ownerOf_agrees hw.rooted (isInherited_nearestManifest w c) h d
  rw [canonical_of_isLocation hd] at howner
  unfold enter
  generalize ownerOf w c found.2 d = answer at howner hagrees
  by_cases hown : answer.1 = owner
  · have hhere : w.nearestManifest c d = owner := howner.symm.trans hown
    have hrest := hdeeper (answer.2.list w d).2 hagrees
    simp only [hown, ne_eq, not_true_eq_false, if_false, hrest, Workspace.isEmpty_testFiles]
    rw [List.filter_cons, Workspace.isPackage, List.append_assoc]
    cases w.holdsTest c d <;> simp [hhere]
  · -- had one of the directories below the owner, so would this one have
    have hnone : (d :: below).filter (w.isPackage c owner) = [] := by
      rw [List.filter_eq_nil_iff]
      intro p hp hpackage
      rw [Workspace.isPackage, Bool.and_eq_true, decide_eq_true_eq] at hpackage
      have hwalk : w.Walks c d p := by
        rw [Workspace.walks_iff_eq_or, ← hbelow.mem_iff]
        exact List.mem_cons.mp hp
      exact hown (howner.trans (hprune p hwalk hpackage.1))
    simp only [ne_eq, hown, not_false_eq_true, if_true, hnone, List.append_nil]

theorem foldl_enter_eq_filter (hw : w.IsInMemory) {ds order : List String}
    (horder : w.PreOrder c ds order) (hds : ∀ d ∈ ds, IsLocation d)
    (hprune : ∀ d ∈ ds, ∀ p, w.Walks c d p →
      w.nearestManifest c p = owner → w.nearestManifest c d = owner)
    (hdeeper : ∀ d ∈ ds, ∀ below, w.PreOrder c (c.subdirectories d (w.entries d)) below →
      ∀ t : Survey, Agrees (fun d o => o = w.nearestManifest c d) t.owners →
        (deeper (c.subdirectories d (w.entries d)) t).1 = below.filter (w.isPackage c owner))
    (hkeeps : ∀ ds t, Agrees (fun d o => o = w.nearestManifest c d) t.owners →
      Agrees (fun d o => o = w.nearestManifest c d) (deeper ds t).2.owners)
    {found : List String × Survey}
    (h : Agrees (fun d o => o = w.nearestManifest c d) found.2.owners) :
    (ds.foldl (enter w c owner deeper) found).1 =
      found.1 ++ order.filter (w.isPackage c owner) := by
  induction horder generalizing found with
  | nil => simp
  | @cons d ds below after hbelow _ _ ih =>
      have hd := List.mem_cons_self (a := d) (l := ds)
      have hstep := enter_eq_filter hw (hds d hd) hbelow (hprune d hd) (hdeeper d hd below hbelow) h
      have hkept := isKept_agrees hw (isInherited_nearestManifest w c)
      have hafter : Agrees (fun d o => o = w.nearestManifest c d)
        (enter w c owner deeper found d).2.owners := hkept.enter hkeeps d h
      rw [List.foldl_cons, ih (fun d' hd' => hds d' (List.mem_cons_of_mem _ hd'))
        (fun d' hd' => hprune d' (List.mem_cons_of_mem _ hd'))
        (fun d' hd' => hdeeper d' (List.mem_cons_of_mem _ hd')) hafter, hstep,
        List.append_assoc, ← List.filter_append, List.cons_append]

end Enter

/-- The packages found from some directories of a root are what is left of the pre-order. -/
theorem packagesFrom_eq_filter (hw : w.IsInMemory) (hroot : IsLocation root)
    (howner : ∀ m, owner = some m → IsLocation m → m = root) {depth : Nat}
    {ds order : List String}
    (horder : w.PreOrder c ds order)
    (hds : ∀ d ∈ ds, IsLocation d ∧ isAtOrBelow d root = true ∧ w.room d < depth)
    (h : Agrees (fun d o => o = w.nearestManifest c d) s.owners) :
    (packagesFrom w c owner depth ds s).1 = order.filter (w.isPackage c owner) := by
  induction depth generalizing ds order s with
  | zero =>
      cases horder with
      | nil => rfl
      | cons => exact absurd (hds _ List.mem_cons_self).2.2 (Nat.not_lt_zero _)
  | succ depth ih =>
      have hin := isInherited_nearestManifest w c
      have hnone : (([] : List String), s).1 ++ order.filter (w.isPackage c owner) =
          order.filter (w.isPackage c owner) := List.nil_append _
      rw [packagesFrom_succ, ← hnone]
      refine foldl_enter_eq_filter hw horder (fun d hd => (hds d hd).1) ?_ ?_
        (fun ds t ht => (isKept_agrees hw hin).packagesFrom owner depth ds ht) h
      · intro d hd p hwalk hown
        obtain ⟨hloc, hdr, -⟩ := hds d hd
        obtain ⟨hp, hpd⟩ := hwalk.isAtOrBelow hw hloc
        exact Workspace.nearestManifest_eq_of_below hroot howner hloc hp hdr hpd hown
      · intro d hd below hbelow t ht
        obtain ⟨hloc, hdr, hroom⟩ := hds d hd
        refine ih hbelow (fun sub hsub => ?_) ht
        have hsubloc := Conventions.isLocation_of_mem_subdirectories hw hloc sub hsub
        have hself := (Workspace.below_of_mem_subdirectories hw hloc hsub).1
        have hless := Workspace.room_lt_of_mem_subdirectories hw hloc hsub
        exact ⟨hsubloc, isAtOrBelow_trans hsubloc hloc hroot hself hdr, by omega⟩

/-! ## The stack of the search -/

/-- A search with a stack of directories: the owner of the top is looked up, and if it is the one
asked for, the top is listed and the directories that it lists take its place.  The stack runs empty
with the given packages and the given survey. -/
inductive Searches (w : Workspace) (c : Conventions) (owner : Owner) :
    List String → Survey → List String → Survey → Prop
  | done (s : Survey) : Searches w c owner [] s [] s
  | skip {d : String} {stack found : List String} {s t : Survey} :
      (ownerOf w c s d).1 ≠ owner → Searches w c owner stack (ownerOf w c s d).2 found t →
      Searches w c owner (d :: stack) s found t
  | enter {d : String} {stack found : List String} {s t : Survey} :
      (ownerOf w c s d).1 = owner →
      Searches w c owner (c.subdirectories d (w.entries d) ++ stack)
        ((ownerOf w c s d).2.list w d).2 found t →
      Searches w c owner (d :: stack) s
        ((if (c.testFiles d (w.entries d)).isEmpty then [] else [d]) ++ found) t

section Stack

variable {deeper : List String → Survey → List String × Survey}

theorem enter_eq_append (found : List String × Survey) (d : String) :
    enter w c owner deeper found d = (found.1 ++ (enter w c owner deeper ([], found.2) d).1,
      (enter w c owner deeper ([], found.2) d).2) := by
  unfold enter
  simp only
  split
  · rw [List.append_nil]
  · rw [List.nil_append, List.append_assoc]

theorem foldl_enter_eq_append (ds : List String) (found : List String × Survey) :
    ds.foldl (enter w c owner deeper) found =
      (found.1 ++ (ds.foldl (enter w c owner deeper) ([], found.2)).1,
        (ds.foldl (enter w c owner deeper) ([], found.2)).2) := by
  induction ds generalizing found with
  | nil => simp
  | cons d ds ih =>
      rw [List.foldl_cons, List.foldl_cons, ih, ih (enter w c owner deeper ([], found.2) d),
        enter_eq_append found d, List.append_assoc]

theorem Searches.foldl_enter {ds stack found : List String} {s t : Survey}
    (hdeeper : ∀ d ∈ ds, ∀ (stack found : List String) (s : Survey),
      Searches w c owner stack (deeper (c.subdirectories d (w.entries d)) s).2 found t →
      Searches w c owner (c.subdirectories d (w.entries d) ++ stack) s
        ((deeper (c.subdirectories d (w.entries d)) s).1 ++ found) t)
    (h : Searches w c owner stack (ds.foldl (Survey.enter w c owner deeper) ([], s)).2 found t) :
    Searches w c owner (ds ++ stack) s
      ((ds.foldl (Survey.enter w c owner deeper) ([], s)).1 ++ found) t := by
  induction ds generalizing s with
  | nil => exact h
  | cons d ds ih =>
      rw [List.foldl_cons, foldl_enter_eq_append] at h ⊢
      simp only at h ⊢
      have hlater := ih (fun d' hd' => hdeeper d' (List.mem_cons_of_mem _ hd')) h
      rw [List.append_assoc]
      generalize (ds.foldl (Survey.enter w c owner deeper)
        ([], (Survey.enter w c owner deeper ([], s) d).2)).1 ++ found = rest at hlater ⊢
      unfold Survey.enter at hlater ⊢
      simp only at hlater ⊢
      by_cases hown : (ownerOf w c s d).1 = owner
      · rw [if_neg (not_not.mpr hown)] at hlater ⊢
        rw [List.nil_append, List.append_assoc]
        exact .enter hown (hdeeper d List.mem_cons_self _ _ _ hlater)
      · rw [if_pos hown] at hlater ⊢
        exact .skip hown hlater

end Stack

/-- With enough room the recursion finds what the stack finds until the directories are worked
off. -/
theorem searches_packagesFrom (hw : w.IsInMemory) {depth : Nat} {ds stack found : List String}
    {t : Survey} (hds : ∀ d ∈ ds, IsLocation d ∧ w.room d < depth)
    (h : Searches w c owner stack (packagesFrom w c owner depth ds s).2 found t) :
    Searches w c owner (ds ++ stack) s ((packagesFrom w c owner depth ds s).1 ++ found) t := by
  induction depth generalizing ds stack found s t with
  | zero =>
      cases ds with
      | nil => exact h
      | cons d ds => exact absurd (hds d List.mem_cons_self).2 (Nat.not_lt_zero _)
  | succ depth ih =>
      rw [packagesFrom_succ] at h ⊢
      refine .foldl_enter (fun d hd stack found s hlater => ih (fun sub hsub => ?_) hlater) h
      obtain ⟨hloc, hroom⟩ := hds d hd
      have hless := Workspace.room_lt_of_mem_subdirectories hw hloc hsub
      exact ⟨Conventions.isLocation_of_mem_subdirectories hw hloc sub hsub, by omega⟩

/-- The search for the packages of a root comes to an end. -/
theorem searches_rootChildren (hw : w.IsInMemory) (s : Survey) (root : String) (owner : Owner) :
    Searches w c owner
      (c.subdirectories (canonical w.cwd root) (w.entries (canonical w.cwd root)))
      (s.list w (canonical w.cwd root)).2 (rootChildren w c s root owner).1
      (rootChildren w c s root owner).2.2 := by
  have hr := isLocation_canonical hw.rooted root
  have hsubs : ∀ sub ∈ c.subdirectories (canonical w.cwd root)
      (w.entries (canonical w.cwd root)), IsLocation sub ∧ w.room sub < w.depthBound :=
    fun sub hsub => ⟨Conventions.isLocation_of_mem_subdirectories hw hr sub hsub,
      w.room_lt_depthBound sub⟩
  unfold rootChildren
  simp only [fst_list]
  generalize c.subdirectories (canonical w.cwd root) (w.entries (canonical w.cwd root)) = subs
    at hsubs
  generalize (s.list w (canonical w.cwd root)).2 = t
  have hdone : Searches w c owner [] (packagesFrom w c owner w.depthBound subs t).2 []
      (packagesFrom w c owner w.depthBound subs t).2 := .done _
  have hsearch := searches_packagesFrom hw hsubs hdone
  rwa [List.append_nil, List.append_nil] at hsearch

/-! ## The packages of a root -/

/-- The packages of a root are what is left of the pre-order of the walk from it. -/
theorem fst_rootChildren (hw : w.IsInMemory)
    (howner : ∀ m, owner = some m → IsLocation m → m = canonical w.cwd root)
    (h : Agrees (fun d o => o = w.nearestManifest c d) s.owners) {walked : List String}
    (hwalked : w.PreOrder c [canonical w.cwd root] walked) :
    (rootChildren w c s root owner).1 =
      walked.filter fun d => d ≠ canonical w.cwd root && w.isPackage c owner d := by
  have hr : IsLocation (canonical w.cwd root) := isLocation_canonical hw.rooted root
  unfold rootChildren
  simp only [fst_list]
  generalize canonical w.cwd root = r at howner hwalked hr
  cases hwalked with
  | @cons _ _ below _ hbelow hafter =>
      cases hafter
      -- the search starts below the root, so it never comes to the root itself
      have hinside : ∀ p ∈ below, p ≠ r := by
        intro p hp
        obtain ⟨sub, hsub, hwalk⟩ := hbelow.mem_iff.mp hp
        exact (hwalk.of_subdirectory hw hr hsub).2
      have hsubs : ∀ sub ∈ c.subdirectories r (w.entries r),
          IsLocation sub ∧ isAtOrBelow sub r = true ∧ w.room sub < w.depthBound := by
        intro sub hsub
        exact ⟨Conventions.isLocation_of_mem_subdirectories hw hr sub hsub,
          (Workspace.below_of_mem_subdirectories hw hr hsub).1, w.room_lt_depthBound sub⟩
      have hlisted : Agrees (fun d o => o = w.nearestManifest c d) (s.list w r).2.owners := h
      rw [packagesFrom_eq_filter hw hr howner hbelow hsubs hlisted, List.append_nil,
        List.filter_cons_of_neg (by simp)]
      refine List.filter_congr fun p hp => ?_
      simp [hinside p hp]

/-- The search for the packages of a root comes to an end.  Whatever was asked before, the packages
are, of all directories to which the listings lead from the root through names that are not left
out, taken in pre-order, those other than the root that have the owner of the root and list a test
file.  The files of the root are the test files that it lists, in the order of its listing. -/
theorem rootChildren_eq_filter (w : Workspace) (hw : w.IsInMemory) (c : Conventions)
    (queries : List Query) (root : String) (owner : Owner)
    (howner : owner = none ∨ owner = some root ∨ owner = some (canonical w.cwd root)) :
    let r := canonical w.cwd root
    let asked := askAll w c .empty queries
    let children := rootChildren w c asked root owner
    Searches w c owner (c.subdirectories r (w.entries r)) (asked.list w r).2 children.1
        children.2.2 ∧
      (∃ walked, w.PreOrder c [r] walked ∧ walked.Nodup ∧
        (∀ d, d ∈ walked ↔ w.Lists r d ∧ c.Reaches r d) ∧
        children.1 = walked.filter fun d => d ≠ r && w.isPackage c owner d) ∧
      children.2.1 = ((w.entries r).filter fun e => e.2 == .file && c.isTestFile e.1).map
        fun e => below r e.1 := by
  intro r asked children
  have hr : IsLocation r := isLocation_canonical hw.rooted root
  have hempty : Agrees (fun d o => o = w.nearestManifest c d) Survey.empty.owners := agrees_empty _
  have hagrees := askAll_agrees hw (isInherited_nearestManifest w c) hempty queries
  obtain ⟨walked, hwalked⟩ := Workspace.exists_preOrder hw c hr
  have hroot : ∀ m, owner = some m → IsLocation m → m = r := by
    rintro m rfl hm
    rcases howner with hnone | hsame | hsame
    · exact absurd hnone (by simp)
    · obtain rfl : m = root := Option.some.inj hsame
      exact (canonical_of_isLocation hm w.cwd).symm
    · exact Option.some.inj hsame
  refine ⟨searches_rootChildren hw asked root owner, ⟨walked, hwalked,
    hwalked.nodup hw (by simpa using hr) (List.pairwise_singleton _ _), fun d => ?_,
    fst_rootChildren hw hroot hagrees hwalked⟩, rfl⟩
  rw [hwalked.mem_iff]
  simp [Workspace.walks_iff hw hr]

/-- A module inside the root and a package behind it in the listing; an owner was asked for
before. -/
theorem rootChildren_eq_filter_nested :
    let w := Workspace.holding "/" [("/m/go.mod", ""), ("/m/in/go.mod", ""),
      ("/m/in/y_test.go", ""), ("/m/z/z_test.go", "")]
    let children := rootChildren w .usual (askAll w .usual .empty [.ownerOf "/m/in"]) "/m/"
      (some "/m")
    w.IsInMemory ∧ some "/m" = some (canonical w.cwd "/m/") ∧ children.1 = ["/m/z"] ∧
      ∃ walked, w.PreOrder .usual [canonical w.cwd "/m/"] walked ∧
        children.1 = walked.filter fun d =>
          d ≠ canonical w.cwd "/m/" && w.isPackage .usual (some "/m") d := by
  intro w children
  have hw : w.IsInMemory := Workspace.isInMemory_holding (by decide) _
  have howner : some "/m" = some (canonical w.cwd "/m/") := by decide +kernel
  obtain ⟨-, ⟨walked, hwalked, -, -, hpackages⟩, -⟩ := rootChildren_eq_filter w hw .usual
    [.ownerOf "/m/in"] "/m/" (some "/m") (Or.inr (Or.inr howner))
  exact ⟨hw, howner, by decide +kernel, walked, hwalked, hpackages⟩

end Survey

end TestAtlas
