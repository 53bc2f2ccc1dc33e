import TestAtlas.Proofs.Workspace.Roots

/-!
# The order of a walk

A walk keeps a stack of directories.  The one on top is visited, and the directories that it lists
and that are not left out take its place, so the stack grows and shrinks: that it runs empty at
last is `traverses_visits`.  What was visited then is in the order of the recursion on the listings,
each directory before those below it: `preOrder_visits`.  No directory is visited twice
(`PreOrder.nodup`), so this is also the order in which a survey of one root knows its directories.
The main statement is `build_maps_walked`.
-/

namespace TestAtlas

open TestAtlas.Path

namespace Workspace

/-- The second list goes through the directories of the first and through all that the walks from
them come to, each directory before those below it and in the order of the listings. -/
inductive PreOrder (w : Workspace) (c : Conventions) : List String → List String → Prop
  | nil : PreOrder w c [] []
  | cons {d : String} {ds below after : List String} :
      PreOrder w c (c.subdirectories d (w.entries d)) below → PreOrder w c ds after →
      PreOrder w c (d :: ds) (d :: (below ++ after))

/-- No location lies in both directories. -/
def IsApart (a b : String) : Prop :=
  ∀ p, IsLocation p → isAtOrBelow p a = true → isAtOrBelow p b = false

variable {w : Workspace} {c : Conventions} {d p : String} {ds es xs ys : List String}

theorem PreOrder.append (h : w.PreOrder c ds xs) (h' : w.PreOrder c es ys) :
    w.PreOrder c (ds ++ es) (xs ++ ys) := by
  induction h with
  | nil => exact h'
  | cons hbelow _ _ ih =>
      rw [List.cons_append, List.cons_append, List.append_assoc]
      exact .cons hbelow ih

theorem PreOrder.flatMap {order : String → List String}
    (h : ∀ d ∈ ds, w.PreOrder c [d] (order d)) : w.PreOrder c ds (ds.flatMap order) := by
  induction ds with
  | nil => exact .nil
  | cons d ds ih =>
      have hfirst := h d List.mem_cons_self
      have hrest := ih fun d' hd' => h d' (List.mem_cons_of_mem _ hd')
      exact hfirst.append hrest

theorem walks_iff_eq_or : w.Walks c d p ↔
    p = d ∨ ∃ sub ∈ c.subdirectories d (w.entries d), w.Walks c sub p := by
  constructor
  · intro h
    cases h with
    | refl => exact Or.inl rfl
    | enter hsub hrest => exact Or.inr ⟨_, hsub, hrest⟩
  · rintro (rfl | ⟨sub, hsub, hrest⟩)
    · exact .refl p
    · exact .enter hsub hrest

/-- The pre-order goes exactly through what the walks come to. -/
theorem PreOrder.mem_iff (h : w.PreOrder c ds xs) : p ∈ xs ↔ ∃ d ∈ ds, w.Walks c d p := by
  induction h with
  | nil => simp
  | cons _ _ ihbelow ihafter =>
      rw [List.mem_cons, List.mem_append, ihbelow, ihafter, List.exists_mem_cons_iff,
        walks_iff_eq_or, or_assoc]

/-! ## No directory twice -/

/-- A directory lists each name once. -/
theorem nodup_names_entries (w : Workspace) (d : String) :
    ((w.entries d).map Prod.fst).Nodup := by
  unfold entries readDirectory FileStore.readDirectory
  split
  · rename_i listed hread
    split at hread
    · exact absurd hread (by simp)
    · simp only at hread
      split at hread
      · exact absurd hread (by simp)
      · split at hread
        · rename_i listing _
          rw [← Except.ok.inj hread]
          exact listing.keys_nodup
        · exact absurd hread (by simp)
  · exact List.nodup_nil

theorem isApart_below (hd : IsLocation d) {m n : String} (hm : IsSegment m) (hn : IsSegment n)
    (hne : m ≠ n) : IsApart (below d m) (below d n) := by
  have hout : ∀ m n, IsSegment m → IsSegment n → m ≠ n →
      isAtOrBelow (below d m) (below d n) = false := by
    intro m n hm hn hne
    rw [Bool.eq_false_iff, ne_eq, isAtOrBelow_below_iff hd hm (hd.below hn)]
    rintro (hsame | hdn)
    · have hlast := congrArg lastPart hsame
      rw [lastPart_below hd hm, lastPart_below hd hn] at hlast
      exact hne hlast.symm
    · exact below_ne_self hd hn
        (isAtOrBelow_antisymm (hd.below hn) hd (isAtOrBelow_below_self hd hn) hdn)
  intro p hp hpm
  rw [Bool.eq_false_iff]
  intro hpn
  -- of two directories above one location, one lies in the other
  rcases isAtOrBelow_total (hd.below hm) (hd.below hn) hp hpm hpn with h | h
  · rw [hout m n hm hn hne] at h
    exact absurd h (by simp)
  · rw [hout n m hn hm hne.symm] at h
    exact absurd h (by simp)

theorem pairwise_isApart_subdirectories (hw : w.IsInMemory) (hd : IsLocation d) :
    (c.subdirectories d (w.entries d)).Pairwise IsApart := by
  have hnames := w.nodup_names_entries d
  rw [List.Nodup, List.pairwise_map] at hnames
  rw [Conventions.subdirectories, List.pairwise_map]
  refine (hnames.filter _).imp_of_mem fun ha hb hne => ?_
  exact isApart_below hd (isSegment_of_mem_entries hw (List.mem_of_mem_filter ha))
    (isSegment_of_mem_entries hw (List.mem_of_mem_filter hb)) hne

/-- What a walk comes to from a subdirectory lies strictly below the directory. -/
theorem Walks.of_subdirectory (hw : w.IsInMemory) (hd : IsLocation d) {sub : String}
    (hsub : sub ∈ c.subdirectories d (w.entries d)) (h : w.Walks c sub p) :
    Path.isAtOrBelow p d = true ∧ p ≠ d := by
  have hloc := Conventions.isLocation_of_mem_subdirectories hw hd sub hsub
  obtain ⟨hbelow, hne⟩ := below_of_mem_subdirectories hw hd hsub
  obtain ⟨hp, hin⟩ := h.isAtOrBelow hw hloc
  refine ⟨isAtOrBelow_trans hp hloc hd hin hbelow, ?_⟩
  rintro rfl
  exact hne (isAtOrBelow_antisymm hloc hd hbelow hin)

/-- The walks from directories that are apart come to no directory twice. -/
theorem PreOrder.nodup (hw : w.IsInMemory) (h : w.PreOrder c ds xs)
    (hds : ∀ d ∈ ds, IsLocation d) (hapart : ds.Pairwise IsApart) : xs.Nodup := by
  induction h with
  | nil => exact List.nodup_nil
  | @cons d ds below after hbelow hafter ihbelow ihafter =>
      have hd := hds d List.mem_cons_self
      have hrest : ∀ d' ∈ ds, IsLocation d' := fun d' hd' => hds d' (List.mem_cons_of_mem _ hd')
      rw [List.pairwise_cons] at hapart
      have hinside : ∀ p ∈ below, IsLocation p ∧ isAtOrBelow p d = true ∧ p ≠ d := by
        intro p hp
        obtain ⟨sub, hsub, hwalk⟩ := hbelow.mem_iff.mp hp
        have hloc := Conventions.isLocation_of_mem_subdirectories hw hd sub hsub
        exact ⟨(hwalk.isAtOrBelow hw hloc).1, hwalk.of_subdirectory hw hd hsub⟩
      have houtside : ∀ p ∈ after, isAtOrBelow p d = false := by
        intro p hp
        obtain ⟨d', hd', hwalk⟩ := hafter.mem_iff.mp hp
        obtain ⟨hloc, hin⟩ := hwalk.isAtOrBelow hw (hrest d' hd')
        rw [Bool.eq_false_iff]
        intro hpd
        rw [hapart.1 d' hd' p hloc hpd] at hin
        exact absurd hin (by simp)
      rw [List.nodup_cons, List.mem_append, List.nodup_append]
      refine ⟨?_, ?_, ihafter hrest hapart.2, ?_⟩
      · rintro (hmem | hmem)
        · exact (hinside d hmem).2.2 rfl
        · have hself := houtside d hmem
          rw [isAtOrBelow_refl] at hself
          exact absurd hself (by simp)
      · exact ihbelow (Conventions.isLocation_of_mem_subdirectories hw hd)
          (pairwise_isApart_subdirectories hw hd)
      · rintro p hp q hq rfl
        have hin := (hinside p hp).2.1
        rw [houtside p hq] at hin
        exact absurd hin (by simp)

end Workspace

namespace Survey

variable {w : Workspace} {c : Conventions} {d : String} {ds : List String}

open Workspace (PreOrder)

/-- A walk with enough room visits in pre-order. -/
theorem preOrder_visits (hw : w.IsInMemory) (hd : IsLocation d) {depth : Nat}
    (hroom : w.room d < depth) (owner : Owner) :
    w.PreOrder c [d] ((visits w c depth owner d).map Prod.fst) := by
  induction depth generalizing d owner with
  | zero => exact absurd hroom (Nat.not_lt_zero _)
  | succ depth ih =>
      have hbelow : ∀ o, w.PreOrder c (c.subdirectories d (w.entries d))
          ((c.subdirectories d (w.entries d)).flatMap fun sub =>
            (visits w c depth o sub).map Prod.fst) := by
        intro o
        refine .flatMap fun sub hsub => ?_
        have hless := Workspace.room_lt_of_mem_subdirectories hw hd hsub
        exact ih (Conventions.isLocation_of_mem_subdirectories hw hd sub hsub) (by omega) o
      rw [visits, List.map_cons, List.map_flatMap]
      simpa using PreOrder.cons (hbelow _) PreOrder.nil

end Survey

/-- The recursion on the listings comes to an end from every directory. -/
theorem Workspace.exists_preOrder {w : Workspace} {d : String} (hw : w.IsInMemory)
    (c : Conventions) (hd : IsLocation d) : ∃ order, w.PreOrder c [d] order :=
  ⟨_, Survey.preOrder_visits hw hd (w.room_lt_depthBound d) none⟩

namespace Survey

variable {w : Workspace} {c : Conventions} {d : String} {ds : List String}

/-! ## The stack of a walk -/

/-- The owner of a directory, given the owner of the directory above it. -/
def ownerBelow (w : Workspace) (c : Conventions) (owner : Owner) (d : String) : Owner :=
  if c.hasManifest (w.entries d) then some d else owner

/-- A walk with a stack of directories, each with the owner of the directory above it, that runs
empty after the given visits. -/
inductive Traverses (w : Workspace) (c : Conventions) :
    List (String × Owner) → List (String × Owner) → Prop
  | done : Traverses w c [] []
  | visit {d : String} {owner : Owner} {stack found : List (String × Owner)} :
      Traverses w c ((c.subdirectories d (w.entries d)).map (fun sub =>
        (sub, ownerBelow w c owner d)) ++ stack) found →
      Traverses w c ((d, owner) :: stack) ((d, ownerBelow w c owner d) :: found)

/-- The walks from some roots, one after another.  Each looks above its root first, and what it
finds is written into the map of the owners. -/
inductive WalksRoots (w : Workspace) (c : Conventions) :
    Keyed String Owner → List String → Keyed String Owner → Prop
  | done (owners : Keyed String Owner) : WalksRoots w c owners [] owners
  | walk {owners after : Keyed String Owner} {root : String} {roots : List String}
      {found : List (String × Owner)} :
      Traverses w c [(root, (ownerAbove w c owners (directoriesAbove root)).1)] found →
      WalksRoots w c (owners.insertMany found) roots after →
      WalksRoots w c owners (root :: roots) after

theorem Traverses.flatMap {stack rest : List (String × Owner)} {owner : Owner}
    {visited : String → List (String × Owner)}
    (h : ∀ d ∈ ds, ∀ stack rest, Traverses w c stack rest →
      Traverses w c ((d, owner) :: stack) (visited d ++ rest))
    (hrest : Traverses w c stack rest) :
    Traverses w c (ds.map (fun d => (d, owner)) ++ stack) (ds.flatMap visited ++ rest) := by
  induction ds with
  | nil => exact hrest
  | cons d ds ih =>
      have hlater := ih fun d' hd' => h d' (List.mem_cons_of_mem _ hd')
      rw [List.flatMap_cons, List.append_assoc, List.map_cons, List.cons_append]
      exact h d List.mem_cons_self _ _ hlater

/-- With enough room the recursion visits what the stack visits until its top is worked off. -/
theorem traverses_visits (hw : w.IsInMemory) (hd : IsLocation d) {depth : Nat}
    (hroom : w.room d < depth) (owner : Owner) {stack rest : List (String × Owner)}
    (hrest : Traverses w c stack rest) :
    Traverses w c ((d, owner) :: stack) (visits w c depth owner d ++ rest) := by
  induction depth generalizing d owner stack rest with
  | zero => exact absurd hroom (Nat.not_lt_zero _)
  | succ depth ih =>
      rw [visits, List.cons_append]
      refine .visit (.flatMap (fun sub hsub stack rest hlater => ?_) hrest)
      have hless := Workspace.room_lt_of_mem_subdirectories hw hd hsub
      exact ih (Conventions.isLocation_of_mem_subdirectories hw hd sub hsub) (by omega) _ hlater

theorem walksRoots_foldl_walk (hw : w.IsInMemory) {roots : List String}
    (hroots : ∀ r ∈ roots, IsLocation r) (s : Survey) :
    WalksRoots w c s.owners roots (roots.foldl (walk w c) s).owners := by
  induction roots generalizing s with
  | nil => exact .done s.owners
  | cons root roots ih =>
      have hstack := traverses_visits (c := c) hw (hroots root List.mem_cons_self)
        (w.room_lt_depthBound root) (ownerAbove w c s.owners (directoriesAbove root)).1 .done
      rw [List.append_nil] at hstack
      exact .walk hstack (ih (fun r hr => hroots r (List.mem_cons_of_mem _ hr)) (walk w c s root))

/-! ## What a survey knows, and in which order -/

/-- A survey of one root knows its directories in pre-order. -/
theorem preOrder_keys_build (hw : w.IsInMemory) (s : Survey) (root : String) :
    w.PreOrder c [canonical w.cwd root] (build w c s [root]).owners.keys := by
  have hroot := isLocation_canonical hw.rooted root
  have hvisits := preOrder_visits (c := c) hw hroot (w.room_lt_depthBound _)
    (ownerAbove w c Keyed.empty (directoriesAbove (canonical w.cwd root))).1
  have hnodup := hvisits.nodup hw (by simpa using hroot) (List.pairwise_singleton _ _)
  have hentries := Keyed.entries_insertMany (m := Keyed.empty) hnodup (by simp [Keyed.empty, Keyed.keys])
  have hkeys : (build w c s [root]).owners.keys = (visits w c w.depthBound
      (ownerAbove w c Keyed.empty (directoriesAbove (canonical w.cwd root))).1
        (canonical w.cwd root)).map Prod.fst := by
    rw [build, owners_report, List.map_singleton, List.foldl_cons, List.foldl_nil, walk, Keyed.keys]
    simp only
    rw [hentries, Keyed.empty, List.nil_append]
  rw [hkeys]
  exact hvisits

/-- The owners that a survey knows depend on the places of its roots only. -/
theorem mem_entries_build_congr (hw : w.IsInMemory) (s t : Survey) {roots roots' : List String}
    (h : ∀ r, r ∈ roots.map (canonical w.cwd) ↔ r ∈ roots'.map (canonical w.cwd))
    (e : String × Owner) :
    e ∈ (build w c s roots).owners.entries ↔ e ∈ (build w c t roots').owners.entries := by
  have hto : ∀ r ∈ roots, ∃ r' ∈ roots', canonical w.cwd r' = canonical w.cwd r :=
    fun r hr => List.mem_map.mp ((h _).mp (List.mem_map_of_mem hr))
  have hfrom : ∀ r' ∈ roots', ∃ r ∈ roots, canonical w.cwd r = canonical w.cwd r' :=
    fun r' hr' => List.mem_map.mp ((h _).mpr (List.mem_map_of_mem hr'))
  rw [(maps_build hw c s roots).mem_entries_iff, (maps_build hw c t roots').mem_entries_iff]
  exact and_congr_left fun _ => ⟨.of_canonical hto, .of_canonical hfrom⟩

/-- A survey of some roots comes to an end.  It knows exactly the directories to which the listings
lead from a root through names that are not left out, the roots among them; for one root it knows
them in pre-order; and which owners it knows depends neither on the order or the number of the
roots nor on what was known before. -/
theorem build_maps_walked (w : Workspace) (hw : w.IsInMemory) (c : Conventions) (s : Survey)
    (roots : List String) :
    WalksRoots w c Keyed.empty (roots.map (canonical w.cwd)) (build w c s roots).owners ∧
      (∀ d, d ∈ (build w c s roots).owners.keys ↔
        ∃ r ∈ roots, w.Lists (canonical w.cwd r) d ∧ c.Reaches (canonical w.cwd r) d) ∧
      (∀ root, roots = [root] →
        w.PreOrder c [canonical w.cwd root] (build w c s roots).owners.keys) ∧
      ∀ t roots', (∀ r, r ∈ roots.map (canonical w.cwd) ↔ r ∈ roots'.map (canonical w.cwd)) →
        ∀ e, e ∈ (build w c s roots).owners.entries ↔
          e ∈ (build w c t roots').owners.entries := by
  have hloc : ∀ r ∈ roots.map (canonical w.cwd), IsLocation r := by
    intro r hr
    obtain ⟨root, -, rfl⟩ := List.mem_map.mp hr
    exact isLocation_canonical hw.rooted root
  refine ⟨walksRoots_foldl_walk hw hloc ⟨Keyed.empty, s.events⟩, fun d => ?_, ?_,
    fun t roots' hroots e => mem_entries_build_congr hw s t hroots e⟩
  · rw [mem_keys_build hw]
    simp only [Workspace.walks_iff hw (isLocation_canonical hw.rooted _)]
  · rintro root rfl
    exact preOrder_keys_build hw s root

/-- Two roots, one of them inside the other, in any order, with a directory that cannot be read, a
root that is left out by its name and one that is missing. -/
theorem build_maps_walked_overlapping :
    let w : Workspace := { Workspace.holding "/" [("/a/go.mod", ""), ("/a/b/c/x.go", ""),
      ("/a/locked/y.go", ""), ("/a/vendor/z/z.go", "")] with unreadable := ["/a/locked"] }
    let c := Conventions.leavingOut ["^vendor$"]
    let roots := ["/a/b", "/a", "/a/vendor", "/gone"]
    let owners := (build w c .empty roots).owners
    w.IsInMemory ∧
      owners.keys = ["/a/b", "/a/b/c", "/a", "/a/locked", "/a/vendor", "/a/vendor/z", "/gone"] ∧
      (∀ d, d ∈ owners.keys ↔
        ∃ r ∈ roots, w.Lists (canonical "/" r) d ∧ c.Reaches (canonical "/" r) d) ∧
      ∀ t e, e ∈ owners.entries ↔
        e ∈ (build w c t ["/gone", "/a", "/a/vendor", "/a/b", "/a/"]).owners.entries := by
  intro w c roots owners
  have hw : w.IsInMemory := ⟨by decide, (Workspace.isInMemory_holding (by decide) _).built⟩
  obtain ⟨-, hkeys, -, hsame⟩ := build_maps_walked w hw c .empty roots
  have hto : ∀ r ∈ roots.map (canonical "/"),
      r ∈ ["/gone", "/a", "/a/vendor", "/a/b", "/a/"].map (canonical "/") := by decide +kernel
  have hfrom : ∀ r ∈ ["/gone", "/a", "/a/vendor", "/a/b", "/a/"].map (canonical "/"),
      r ∈ roots.map (canonical "/") := by decide +kernel
  exact ⟨hw, by decide +kernel, hkeys, fun t e => hsame t _ (fun r => ⟨hto r, hfrom r⟩) e⟩

end Survey

end TestAtlas
