import TestAtlas.Proofs.Workspace.Discovery

/-!
# What a walk comes to

A walk goes from a directory to those that it lists and that are not left out.  It comes to a
directory just when the listings lead there and no name on the way is left out (`walks_iff`).  Each
step down leaves less room, since the directories that list anything are finitely many, so the
bound on the depth cuts no walk short: a survey knows exactly the directories that the walks from
its roots come to (`mem_keys_build`).
-/

namespace TestAtlas

open TestAtlas.Path

namespace Workspace

/-- The listings lead from one directory down to another. -/
inductive Lists (w : Workspace) : String → String → Prop
  | refl (d : String) : Lists w d d
  | enter {d name p : String} : (name, .directory) ∈ w.entries d → Lists w (below d name) p →
      Lists w d p

/-- The listings lead from one directory down to another through directories that are not left
out. -/
inductive Walks (w : Workspace) (c : Conventions) : String → String → Prop
  | refl (d : String) : Walks w c d d
  | enter {d sub p : String} : sub ∈ c.subdirectories d (w.entries d) → Walks w c sub p →
      Walks w c d p

variable {w : Workspace} {c : Conventions} {d m p : String}

theorem Lists.isAtOrBelow (hw : w.IsInMemory) (hd : IsLocation d) (h : w.Lists d p) :
    IsLocation p ∧ Path.isAtOrBelow p d = true := by
  induction h with
  | refl d => exact ⟨hd, isAtOrBelow_refl d⟩
  | @enter d name p hname _ ih =>
      have hseg := isSegment_of_mem_entries hw hname
      obtain ⟨hp, hin⟩ := ih (hd.below hseg)
      exact ⟨hp, isAtOrBelow_trans hp (hd.below hseg) hd hin (isAtOrBelow_below_self hd hseg)⟩

/-- The listings lead to what lies between on the way down, and on from there. -/
theorem Lists.between (hw : w.IsInMemory) (hd : IsLocation d) (hm : IsLocation m)
    (h : w.Lists d p) (hmd : Path.isAtOrBelow m d = true) (hpm : Path.isAtOrBelow p m = true) :
    w.Lists d m ∧ w.Lists m p := by
  induction h with
  | refl d =>
      obtain rfl := isAtOrBelow_antisymm hd hm hpm hmd
      exact ⟨.refl d, .refl d⟩
  | @enter d name p hname hrest ih =>
      have hseg := isSegment_of_mem_entries hw hname
      have hsub := hd.below hseg
      obtain ⟨hp, hin⟩ := hrest.isAtOrBelow hw hsub
      rcases isAtOrBelow_total hm hsub hp hpm hin with hbelow | habove
      · obtain ⟨hfirst, hlast⟩ := ih hsub hbelow hpm
        exact ⟨.enter hname hfirst, hlast⟩
      · rcases (isAtOrBelow_below_iff hd hseg hm).mp habove with rfl | hdm
        · exact ⟨.enter hname (.refl _), hrest⟩
        · obtain rfl := isAtOrBelow_antisymm hd hm hdm hmd
          exact ⟨.refl d, .enter hname hrest⟩

theorem mem_subdirectories_iff {sub : String} :
    sub ∈ c.subdirectories d (w.entries d) ↔
      ∃ name, (name, .directory) ∈ w.entries d ∧ c.isExcluded name = false ∧
        sub = below d name := by
  unfold Conventions.subdirectories
  constructor
  · intro h
    obtain ⟨⟨name, type⟩, he, rfl⟩ := List.mem_map.mp h
    obtain ⟨hmem, hcond⟩ := List.mem_filter.mp he
    rw [Bool.and_eq_true, beq_iff_eq, Bool.not_eq_true'] at hcond
    obtain ⟨rfl, hkept⟩ := hcond
    exact ⟨name, hmem, hkept, rfl⟩
  · rintro ⟨name, hmem, hkept, rfl⟩
    refine List.mem_map.mpr ⟨(name, .directory), List.mem_filter.mpr ⟨hmem, ?_⟩, rfl⟩
    simp [hkept]

end Workspace

/-- One step down is allowed just when the name is not left out. -/
theorem Conventions.reaches_below_iff {c : Conventions} {d name : String} (hd : IsLocation d)
    (hname : IsSegment name) : c.Reaches d (below d name) ↔ c.isExcluded name = false := by
  constructor
  · rintro ⟨names, hnames, heq⟩
    -- the names that lead down are the relative path, which is the one name
    have hone : ∀ n ∈ [name], IsSegment n := by
      rintro n hn
      rwa [List.mem_singleton.mp hn]
    have hrel := relative_descend hd hone
    rw [show descend d [name] = below d name from rfl, heq,
      relative_descend hd fun n hn => (hnames n hn).1] at hrel
    rw [hrel] at hnames
    exact (hnames name (List.mem_singleton_self name)).2
  · intro h
    exact (Reaches.refl c (below d name)).cons hname h

namespace Workspace

variable {w : Workspace} {c : Conventions} {d m p : String}

/-- A walk goes where the listings lead through names that are not left out. -/
theorem walks_iff (hw : w.IsInMemory) (hd : IsLocation d) :
    w.Walks c d p ↔ w.Lists d p ∧ c.Reaches d p := by
  constructor
  · intro h
    induction h with
    | refl d => exact ⟨.refl d, .refl c d⟩
    | enter hsub _ ih =>
        obtain ⟨name, hname, hkept, rfl⟩ := mem_subdirectories_iff.mp hsub
        have hseg := isSegment_of_mem_entries hw hname
        obtain ⟨hlists, hreaches⟩ := ih (hd.below hseg)
        exact ⟨.enter hname hlists, hreaches.cons hseg hkept⟩
  · rintro ⟨hlists, hreaches⟩
    induction hlists with
    | refl d => exact .refl d
    | @enter d name p hname hrest ih =>
        have hseg := isSegment_of_mem_entries hw hname
        have hsub := hd.below hseg
        obtain ⟨hfirst, hlast⟩ := hreaches.between hd hsub (isAtOrBelow_below_self hd hseg)
          (hrest.isAtOrBelow hw hsub).2
        have hkept := (Conventions.reaches_below_iff hd hseg).mp hfirst
        exact .enter (mem_subdirectories_iff.mpr ⟨name, hname, hkept, rfl⟩) (ih hsub hlast)

theorem Walks.isAtOrBelow (hw : w.IsInMemory) (hd : IsLocation d) (h : w.Walks c d p) :
    IsLocation p ∧ Path.isAtOrBelow p d = true :=
  ((walks_iff hw hd).mp h).1.isAtOrBelow hw hd

/-- A walk passes through what lies between on the way down. -/
theorem Walks.between (hw : w.IsInMemory) (hd : IsLocation d) (hm : IsLocation m)
    (h : w.Walks c d p) (hmd : Path.isAtOrBelow m d = true) (hpm : Path.isAtOrBelow p m = true) :
    w.Walks c d m ∧ w.Walks c m p := by
  obtain ⟨hlists, hreaches⟩ := (walks_iff hw hd).mp h
  obtain ⟨hlists₁, hlists₂⟩ := hlists.between hw hd hm hmd hpm
  obtain ⟨hreaches₁, hreaches₂⟩ := hreaches.between hd hm hmd hpm
  exact ⟨(walks_iff hw hd).mpr ⟨hlists₁, hreaches₁⟩, (walks_iff hw hm).mpr ⟨hlists₂, hreaches₂⟩⟩

/-! ## The depth of a walk -/

/-- The number of directories whose location is at least as long. -/
def room (w : Workspace) (d : String) : Nat :=
  w.store.directories.keys.countP fun k => d.length ≤ k.length

theorem room_lt_depthBound (w : Workspace) (d : String) : w.room d < w.depthBound := by
  have hle := List.countP_le_length (p := fun k => decide (d.length ≤ k.length))
    (l := w.store.directories.keys)
  have hsize : w.store.directories.keys.length = w.store.directories.size := List.length_map _
  unfold room depthBound
  omega

/-- A directory that lists anything is one of the directories of the store. -/
theorem mem_keys_of_mem_entries {e : Entry} (h : e ∈ w.entries d) :
    canonical w.cwd d ∈ w.store.directories.keys := by
  rw [← Keyed.contains_iff_mem_keys, Keyed.contains]
  unfold entries readDirectory FileStore.readDirectory at h
  simp only at h
  split at h
  · rename_i hread
    split at hread
    · exact absurd hread (by simp)
    · split at hread
      · exact absurd hread (by simp)
      · split at hread
        · rename_i listing hlisting
          rw [hlisting]
          rfl
        · exact absurd hread (by simp)
  · exact absurd h (by simp)

/-- One step down leaves less room. -/
theorem room_below_lt (hw : w.IsInMemory) (hd : IsLocation d) {name : String} {type : EntryType}
    (hname : (name, type) ∈ w.entries d) : w.room (below d name) < w.room d := by
  have hseg : IsSegment name := isSegment_of_mem_entries hw hname
  have hlonger := length_lt_of_isAtOrBelow (hd.below hseg) hd (isAtOrBelow_below_self hd hseg)
    (below_ne_self hd hseg)
  have hmem := mem_keys_of_mem_entries hname
  rw [canonical_of_isLocation hd] at hmem
  obtain ⟨before, after, hsplit⟩ := List.append_of_mem hmem
  -- the directory itself is counted no more, and no other counts anew
  have hmono : ∀ l : List String,
      l.countP (fun k => decide ((below d name).length ≤ k.length)) ≤
        l.countP fun k => decide (d.length ≤ k.length) := by
    intro l
    apply List.countP_mono_left
    intro k _ hk
    rw [decide_eq_true_eq] at hk ⊢
    omega
  have hbefore := hmono before
  have hafter := hmono after
  unfold room
  rw [hsplit, List.countP_append, List.countP_append, List.countP_cons_of_neg (by simpa using hlonger),
    List.countP_cons_of_pos (by simp)]
  omega

/-- A directory that another one lists lies strictly inside it. -/
theorem below_of_mem_subdirectories (hw : w.IsInMemory) (hd : IsLocation d) {sub : String}
    (h : sub ∈ c.subdirectories d (w.entries d)) :
    Path.isAtOrBelow sub d = true ∧ sub ≠ d := by
  obtain ⟨name, hname, -, rfl⟩ := mem_subdirectories_iff.mp h
  have hseg := isSegment_of_mem_entries hw hname
  exact ⟨isAtOrBelow_below_self hd hseg, below_ne_self hd hseg⟩

theorem room_lt_of_mem_subdirectories (hw : w.IsInMemory) (hd : IsLocation d) {sub : String}
    (h : sub ∈ c.subdirectories d (w.entries d)) : w.room sub < w.room d := by
  obtain ⟨name, hname, -, rfl⟩ := mem_subdirectories_iff.mp h
  exact room_below_lt hw hd hname

end Workspace

/-! ## What a survey knows -/

namespace Survey

variable {w : Workspace} {c : Conventions} {d p : String}

theorem walks_of_mem_visits {depth : Nat} {owner : Owner}
    (h : p ∈ (visits w c depth owner d).map Prod.fst) : w.Walks c d p := by
  induction depth generalizing d owner with
  | zero => exact absurd h (by simp [visits])
  | succ depth ih =>
      rw [visits, List.map_cons, List.mem_cons, List.map_flatMap, List.mem_flatMap] at h
      rcases h with rfl | ⟨sub, hsub, hrest⟩
      · exact .refl p
      · exact .enter hsub (ih hrest)

/-- A walk with enough room comes everywhere. -/
theorem mem_visits_of_walks (hw : w.IsInMemory) (hd : IsLocation d) (h : w.Walks c d p)
    {depth : Nat} (hroom : w.room d < depth) (owner : Owner) :
    p ∈ (visits w c depth owner d).map Prod.fst := by
  induction h generalizing depth owner with
  | refl d =>
      obtain ⟨depth, rfl⟩ := Nat.exists_eq_succ_of_ne_zero (Nat.ne_zero_of_lt hroom)
      rw [visits, List.map_cons]
      exact List.mem_cons_self
  | @enter d sub p hsub _ ih =>
      obtain ⟨depth, rfl⟩ := Nat.exists_eq_succ_of_ne_zero (Nat.ne_zero_of_lt hroom)
      have hless := Workspace.room_lt_of_mem_subdirectories hw hd hsub
      have hloc := Conventions.isLocation_of_mem_subdirectories hw hd sub hsub
      rw [visits, List.map_cons, List.mem_cons, List.map_flatMap, List.mem_flatMap]
      exact Or.inr ⟨_, hsub, ih hloc (by omega) _⟩

theorem mem_keys_walk (hw : w.IsInMemory) {s : Survey} {root : String} (hroot : IsLocation root) :
    p ∈ (walk w c s root).owners.keys ↔ p ∈ s.owners.keys ∨ w.Walks c root p := by
  rw [walk, Keyed.mem_keys_insertMany]
  refine or_congr_right ⟨walks_of_mem_visits, fun h => ?_⟩
  exact mem_visits_of_walks hw hroot h (w.room_lt_depthBound root) _

theorem mem_keys_foldl_walk (hw : w.IsInMemory) {roots : List String}
    (hroots : ∀ r ∈ roots, IsLocation r) {s : Survey} :
    p ∈ (roots.foldl (walk w c) s).owners.keys ↔
      p ∈ s.owners.keys ∨ ∃ r ∈ roots, w.Walks c r p := by
  induction roots generalizing s with
  | nil => simp
  | cons r roots ih =>
      rw [List.foldl_cons, ih fun r' hr' => hroots r' (by simp [hr']),
        mem_keys_walk hw (hroots r (by simp)), List.exists_mem_cons_iff, or_assoc]

/-- A survey knows the directories that the walks from its roots come to. -/
theorem mem_keys_build (hw : w.IsInMemory) (s : Survey) (roots : List String) :
    p ∈ (build w c s roots).owners.keys ↔ ∃ r ∈ roots, w.Walks c (canonical w.cwd r) p := by
  have hroots : ∀ r ∈ roots.map (canonical w.cwd), IsLocation r := by
    intro r hr
    obtain ⟨root, -, rfl⟩ := List.mem_map.mp hr
    exact isLocation_canonical hw.rooted root
  rw [build, owners_report, mem_keys_foldl_walk hw hroots]
  simp [Keyed.empty, Keyed.keys]

/-- Looking for an owner forgets nothing. -/
theorem mem_keys_ownerOf {s : Survey} (h : p ∈ s.owners.keys) (path : String) :
    p ∈ (ownerOf w c s path).2.owners.keys := by
  rw [owners_ownerOf, Keyed.mem_keys_insertMany]
  exact Or.inl h

end Survey

end TestAtlas
