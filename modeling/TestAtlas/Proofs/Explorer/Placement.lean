import TestAtlas.Explorer.Placement
import TestAtlas.Proofs.Explorer.Expansion

/-!
# Placing a file succeeds

A file is placed by putting in a root, possibly a package, and the file itself, each below the one
before.  Each of them belongs there: the owner of the directory, or the folder around it, is a root,
and the names that lead from it to the directory are not left out.  The main statement is
`ensureFile_spec`; `ensureFile_eq` brings the placement into the form of a chain.
-/

namespace TestAtlas

open TestAtlas.Path

namespace Conventions

/-- A directory inside a root is reached from it unless it is left out. -/
theorem reaches_of_not_isLeftOut {c : Conventions} {d root : String} (hd : IsLocation d)
    (hroot : IsLocation root) (hin : isAtOrBelow d root = true)
    (h : Explorer.isLeftOut c d root = false) : c.Reaches root d := by
  obtain ⟨names, hnames, rfl⟩ := exists_descend hroot hd hin
  rw [Explorer.isLeftOut, relative_descend hroot hnames, List.any_eq_false] at h
  exact ⟨names, fun n hn => ⟨hnames n hn, by simpa using h n hn⟩, rfl⟩

theorem Reaches.not_isLeftOut {c : Conventions} {d root : String} (hroot : IsLocation root)
    (h : c.Reaches root d) : Explorer.isLeftOut c d root = false := by
  obtain ⟨names, hnames, rfl⟩ := h
  rw [Explorer.isLeftOut, relative_descend hroot fun n hn => (hnames n hn).1, List.any_eq_false]
  intro n hn
  rw [(hnames n hn).2]
  simp

/-- The name of a test file is not empty, so a test file lies in a directory. -/
theorem exists_below_of_isTestFile {c : Conventions} {file : String} (hfile : IsLocation file)
    (h : c.isTestFile (lastPart file) = true) :
    ∃ d name, IsLocation d ∧ IsSegment name ∧ file = below d name ∧ c.isTestFile name = true ∧
      directoryPart file = d ∧ lastPart file = name := by
  have hne : file ≠ "/" := by
    rintro rfl
    rw [lastPart_root, isTestFile, FileName.isTest_eq_false_of_length_le (Nat.zero_le _)] at h
    exact absurd h (by simp)
  obtain ⟨hd, hname, heq⟩ := eq_below_of_ne_root hfile hne
  exact ⟨_, _, hd, hname, heq, h, rfl, rfl⟩

end Conventions

namespace Explorer

variable {w : Workspace} {J : Judgement} {e : Explorer}

/-! ## The longest folder -/

theorem longest_foldl (fs : List String) (best : String) :
    let r := fs.foldl (fun best f => if best.length < f.length then f else best) best
    (r = best ∨ r ∈ fs) ∧ best.length ≤ r.length ∧ ∀ f ∈ fs, f.length ≤ r.length := by
  induction fs generalizing best with
  | nil => simp
  | cons f fs ih =>
      obtain ⟨hmem, hbest, hall⟩ := ih (if best.length < f.length then f else best)
      simp only [List.foldl_cons]
      generalize hnext : (if best.length < f.length then f else best) = next at hmem hbest hall ⊢
      -- one step keeps the longer of two texts
      have hstep : (next = best ∨ next = f) ∧ best.length ≤ next.length ∧
          f.length ≤ next.length := by
        rw [← hnext]
        split
        · exact ⟨Or.inr rfl, by omega, Nat.le_refl _⟩
        · exact ⟨Or.inl rfl, Nat.le_refl _, by omega⟩
      refine ⟨?_, by omega, ?_⟩
      · rcases hmem with hmem | hmem
        · rw [hmem]
          rcases hstep.1 with rfl | rfl
          · exact Or.inl rfl
          · exact Or.inr List.mem_cons_self
        · exact Or.inr (List.mem_cons_of_mem _ hmem)
      · intro g hg
        rcases List.mem_cons.mp hg with rfl | hg
        · omega
        · exact hall g hg

/-- The longest text is one of the texts, and none is longer. -/
theorem of_longest_eq_some {fs : List String} {best : String} (h : longest fs = some best) :
    best ∈ fs ∧ ∀ f ∈ fs, f.length ≤ best.length := by
  cases fs with
  | nil => exact absurd h (by simp [longest])
  | cons f fs =>
      rw [longest, Option.some.injEq] at h
      obtain ⟨hmem, hbest, hall⟩ := longest_foldl fs f
      rw [h] at hmem hbest hall
      constructor
      · rcases hmem with rfl | hmem
        · exact List.mem_cons_self
        · exact List.mem_cons_of_mem _ hmem
      · intro g hg
        rcases List.mem_cons.mp hg with rfl | hg
        · exact hbest
        · exact hall g hg

theorem of_folderAround_eq_some (hfolders : ∀ f ∈ e.folders, IsLocation f) {d root : String}
    (hd : IsLocation d) (h : e.folderAround w d = some root) :
    root ∈ e.folders ∧ isAtOrBelow d root = true ∧
      ∀ f ∈ e.folders, isAtOrBelow d f = true → f.length ≤ root.length := by
  obtain ⟨hmem, hlongest⟩ := of_longest_eq_some h
  obtain ⟨hmem, hin⟩ := List.mem_filter.mp hmem
  rw [isWithin_of_isLocation hd (hfolders root hmem)] at hin
  refine ⟨hmem, hin, fun f hf hdf => hlongest f (List.mem_filter.mpr ⟨hf, ?_⟩)⟩
  rw [isWithin_of_isLocation hd (hfolders f hf)]
  exact hdf

/-- The longest folder that contains a directory is the folder around it. -/
theorem folderAround_eq (hfolders : ∀ f ∈ e.folders, IsLocation f) {d folder : String}
    (hd : IsLocation d) (hmem : folder ∈ e.folders) (hin : isAtOrBelow d folder = true)
    (hlongest : ∀ f ∈ e.folders, isAtOrBelow d f = true → f ≠ folder →
      f.length < folder.length) : e.folderAround w d = some folder := by
  cases haround : e.folderAround w d with
  | none =>
      have hnil := longest_eq_none_iff.mp haround
      have hfilter : folder ∈ e.folders.filter fun f => isWithin w.cwd d f := by
        apply List.mem_filter.mpr
        rw [isWithin_of_isLocation hd (hfolders folder hmem)]
        exact ⟨hmem, hin⟩
      rw [hnil] at hfilter
      exact absurd hfilter (by simp)
  | some root =>
      obtain ⟨hroot, hdroot, hall⟩ := of_folderAround_eq_some hfolders hd haround
      by_cases heq : root = folder
      · rw [heq]
      · have hlt := hlongest root hroot hdroot heq
        have hle := hall folder hmem hin
        omega

/-! ## Placement as a chain -/

/-- Puts in containers, each below the one before. -/
def ensureChain [StandIns] (e : Explorer) (w : Workspace) (n : ItemNo) :
    List Container → Except Refusal (ItemNo × Explorer)
  | [] => .ok (n, e)
  | k :: ks => do
    let (m, e) ← e.ensure w (.under n) k
    e.ensureChain w m ks

/-- The container at the top of a chain. -/
def rootContainer (w : Workspace) (c : Conventions) (isModule : Bool) (root : String) :
    Container :=
  if isModule then ⟨.module, root, Survey.moduleLabel w c root⟩ else .plain .workspace root

theorem isRoot_rootContainer (w : Workspace) (c : Conventions) (isModule : Bool) (root : String) :
    (rootContainer w c isModule root).kind.isRoot = true := by
  unfold rootContainer
  cases isModule <;> rfl

/-- The containers below the top of a chain, down to the file. -/
def chainBelow (root directory file : String) : List Container :=
  (if directory = root then [] else [.plain .package directory]) ++ [.plain .file file]

theorem isLeaf_of_mem_chainBelow {root directory file : String} {k : Container}
    (hk : k ∈ chainBelow root directory file) : k.kind.isLeaf = false := by
  unfold chainBelow at hk
  split at hk
  · rw [List.nil_append, List.mem_singleton] at hk
    rw [hk]
    rfl
  · rw [List.singleton_append, List.mem_cons, List.mem_singleton] at hk
    rcases hk with rfl | rfl <;> rfl

/-- The explorer after the label of a root was looked up. -/
def labelled (e : Explorer) (w : Workspace) (isModule : Bool) (root : String) : Explorer :=
  if isModule then { e with survey := (e.survey.moduleName w e.conventions root).2 } else e

theorem ensureRoot_eq [StandIns] (e : Explorer) (w : Workspace) (isModule : Bool) (root : String) :
    e.ensureRoot w isModule root =
      (e.labelled w isModule root).ensure w .top (rootContainer w e.conventions isModule root) := by
  cases isModule with
  | true =>
      have hlabel := Survey.fst_moduleName w e.conventions e.survey root
      simp only [ensureRoot, labelled, rootContainer, if_true, ← hlabel]
  | false => rfl

/-- The explorer after the owner of a directory was looked up, with the owner. -/
def lookedUp (e : Explorer) (w : Workspace) (directory : String) : Owner × Explorer :=
  let s := e.surveyed w
  let found := s.survey.ownerOf w s.conventions directory
  (found.1, { s with survey := found.2 })

theorem ensureFile_eq [StandIns] (e : Explorer) (w : Workspace) (path : String)
    {file directory : String} (hfile : canonical w.cwd path = file)
    (hdirectory : directoryPart file = directory)
    {owner : Owner} {s : Explorer} (hs : e.lookedUp w directory = (owner, s)) :
    e.ensureFile w path =
      match owner <|> s.folderAround w directory with
      | none => .ok (none, s.report [.outsideFolders file])
      | some root =>
        if isLeftOut s.conventions directory root then
          .ok (none, s.report [.insideExcluded file])
        else do
          let (n, s) ← (s.labelled w owner.isSome root).ensure w .top
            (rootContainer w s.conventions owner.isSome root)
          let (n, s) ← s.ensureChain w n (chainBelow root directory file)
          return (some n, s) := by
  subst hfile
  unfold lookedUp at hs
  unfold ensureFile
  simp only [hdirectory] at hs ⊢
  generalize e.surveyed w = t at hs ⊢
  generalize t.survey.ownerOf w t.conventions directory = found at hs ⊢
  obtain ⟨o, survey⟩ := found
  simp only [Prod.mk.injEq] at hs
  obtain ⟨rfl, rfl⟩ := hs
  generalize hs : { t with survey := survey } = s
  rw [show t.conventions = s.conventions by rw [← hs]]
  cases hroot : o <|> s.folderAround w directory with
  | none => rfl
  | some root =>
      simp only
      split
      · rfl
      · rw [ensureRoot_eq]
        cases (s.labelled w o.isSome root).ensure w .top
          (rootContainer w s.conventions o.isSome root) with
        | error err => rfl
        | ok found =>
            -- the package is left out of the chain when the root itself is the directory
            by_cases heq : directory = root
            · simp only [chainBelow, if_pos heq, List.nil_append, ensureChain, bind, Except.bind]
              cases found.2.ensure w (.under found.1) (.plain .file (canonical w.cwd path)) <;> rfl
            · simp only [chainBelow, if_neg heq, List.singleton_append, ensureChain, bind,
                Except.bind]
              cases found.2.ensure w (.under found.1) (.plain .package directory) with
              | error err => rfl
              | ok next =>
                  simp only
                  cases next.2.ensure w (.under next.1)
                    (.plain .file (canonical w.cwd path)) <;> rfl

theorem forest_lookedUp (e : Explorer) (w : Workspace) (directory : String) :
    (e.lookedUp w directory).2.forest = e.forest := by
  unfold lookedUp
  exact forest_surveyed e w

theorem forest_labelled (e : Explorer) (w : Workspace) (isModule : Bool) (root : String) :
    (e.labelled w isModule root).forest = e.forest := by
  unfold labelled
  split <;> rfl

/-! ## Putting in a chain -/

/-- Each container of a chain belongs below the one before, the first below the given item. -/
def IsChain (cwd : String) (c : Conventions) (J : Judgement) (folders : List String) :
    Item → List Container → Prop
  | _, [] => True
  | p, k :: ks => (k.kind.isLeaf = false ∧ IsLocation k.location ∧
      Belongs c J folders (some p) (k.item cwd)) ∧ IsChain cwd c J folders (k.item cwd) ks

theorem IsChain.congr_owner {cwd : String} {c : Conventions} {folders : List String}
    {p p' : Item} (hk : p'.kind = p.kind) (hl : p'.location = p.location) {ks : List Container}
    (h : IsChain cwd c J folders p ks) : IsChain cwd c J folders p' ks := by
  cases ks with
  | nil => trivial
  | cons k ks =>
      obtain ⟨⟨hleaf, hloc, hfits⟩, hrest⟩ := h
      exact ⟨⟨hleaf, hloc, hfits.congr_owner hk hl⟩, hrest⟩

/-- The items are those of the containers, in order. -/
def AreItemsOf (f : Forest) (ns : List ItemNo) (ks : List Container) : Prop :=
  List.Forall₂ (fun n k => ∃ i, f.item? n = some i ∧ i.kind = k.kind ∧ i.location = k.location)
    ns ks

theorem AreItemsOf.last {f : Forest} {ks : List Container} {k : Container}
    {ns ms : List ItemNo} {m : ItemNo} (h : AreItemsOf f ms (ks ++ [k]))
    (hm : f.Lineage (ns ++ ms) m) :
    ∃ i, f.item? m = some i ∧ i.kind = k.kind ∧ i.location = k.location := by
  induction ks generalizing ns ms with
  | nil =>
      obtain ⟨x, rest, hx, hrest, rfl⟩ := List.forall₂_cons_right_iff.mp h
      rw [List.forall₂_nil_right_iff.mp hrest] at hm
      rwa [hm.eq_of_concat]
  | cons first ks ih =>
      obtain ⟨x, rest, -, hrest, rfl⟩ := List.forall₂_cons_right_iff.mp h
      rw [← List.singleton_append, ← List.append_assoc] at hm
      exact ih hrest hm

/-- The way to an item goes on from the given one through the items of the containers, and no other
item is new. -/
def HasChain (e e' : Explorer) (ns : List ItemNo) (ks : List Container) (m : ItemNo) : Prop :=
  ∃ ms, e'.forest.Lineage (ns ++ ms) m ∧ AreItemsOf e'.forest ms ks ∧
    ∀ k, e.forest.nodes.size ≤ k → k < e'.forest.nodes.size → k ∈ ms

/-- Containers that belong below one another can be put in as a chain. -/
theorem ensureChain_spec (h : e.IsOrderly w.cwd J) {n : ItemNo} {p : Item}
    (hp : e.forest.item? n = some p) {ks : List Container}
    (hks : IsChain w.cwd e.conventions J e.folders p ks) {ns : List ItemNo}
    (hns : e.forest.Lineage ns n) :
    ∃ m e', e.ensureChain w n ks = .ok (m, e') ∧ e'.IsOrderly w.cwd J ∧ e.Grows e' ∧
      e.HasChain e' ns ks m := by
  induction ks generalizing e n p ns with
  | nil =>
      refine ⟨n, e, rfl, h, Grows.refl e, [], ?_, .nil, ?_⟩
      · rw [List.append_nil]
        exact hns
      · intro k hle hlt
        omega
  | cons k ks ih =>
      obtain ⟨⟨hleaf, hloc, hfits⟩, hrest⟩ := hks
      have howner := Forest.ownerAt_under hp
      obtain ⟨m, e', hensure, he', hgrows, hput⟩ := ensure_spec h (.under n) howner hleaf hloc hfits
      obtain ⟨i, hi, hik, hil⟩ := hput.item
      have hrest' : IsChain w.cwd e'.conventions J e'.folders i ks := by
        rw [hgrows.conventions, hgrows.folders]
        exact hrest.congr_owner hik hil
      have hm : e'.forest.Lineage (ns ++ [m]) m := .under (hns.grows hgrows.forest) hput.mem
      obtain ⟨l, e'', hchain, he'', hgrows', ms, hl, hitems, hnew⟩ := ih he' hi hrest' hm
      refine ⟨l, e'', ?_, he'', hgrows.trans hgrows', m :: ms, ?_, ?_, ?_⟩
      · rw [ensureChain, hensure]
        exact hchain
      · rw [List.append_assoc] at hl
        exact hl
      · exact .cons ⟨i, hgrows'.forest.keeps m i hi, hik, hil⟩ hitems
      · -- a new item is that of this container, or one of those made after it
        intro j hle hlt
        by_cases hj : j < e'.forest.nodes.size
        · rw [hput.only j hle hj]
          exact List.mem_cons_self
        · exact List.mem_cons_of_mem _ (hnew j (Nat.le_of_not_lt hj) hlt)

/-! ## Placing a file -/

theorem isChain_chainBelow {cwd : String} {c : Conventions} {folders : List String} {r : Item}
    {directory name : String} (hr : r.kind.isRoot = true) (hdirectory : IsLocation directory)
    (hreach : c.Reaches r.location directory) (hown : J.owns directory (ownerOfRoot r))
    (hname : IsSegment name) (htest : c.isTestFile name = true) :
    IsChain cwd c J folders r (chainBelow r.location directory (below directory name)) := by
  have hlabel := lastPart_below hdirectory hname
  have hfile := hdirectory.below hname
  by_cases heq : directory = r.location
  · have hlocation : below directory name = below r.location name := by rw [heq]
    rw [chainBelow, if_pos heq]
    exact ⟨⟨rfl, hfile, .file (Or.inl hr) rfl hname htest hlocation hlabel⟩, trivial⟩
  · rw [chainBelow, if_neg heq]
    refine ⟨⟨rfl, hdirectory, ?_⟩, ⟨rfl, hfile, ?_⟩, trivial⟩
    · exact .package hr rfl hreach heq hown ⟨name, hname, htest⟩ rfl
    · exact .file (Or.inr rfl) rfl hname htest rfl hlabel

/-- The owner of a directory, or the folder around it, is a root above it. -/
theorem rootContainer_spec (hJ : J.Holds w e.conventions) (hfolders : ∀ f ∈ e.folders, IsLocation f)
    {directory root : String} (hdirectory : IsLocation directory) {owner : Owner}
    (howns : J.owns directory owner)
    (hroot : (owner <|> e.folderAround w directory) = some root) :
    let k := rootContainer w e.conventions owner.isSome root
    k.location = root ∧ IsLocation root ∧ isAtOrBelow directory root = true ∧
      J.IsRoot e.folders k.kind k.location k.label ∧ ownerOfRoot (k.item w.cwd) = owner := by
  cases owner with
  | some m =>
      obtain ⟨hm, hin⟩ := hJ.above directory m hdirectory howns
      have heq : m = root := Option.some.inj hroot
      subst heq
      refine ⟨rfl, hm, hin, .module hdirectory howns (hJ.labelled m), ?_⟩
      show (if Kind.module = Kind.module ∧ m ≠ "" then some m else none) = some m
      rw [if_pos ⟨rfl, hm.ne_empty⟩]
  | none =>
      obtain ⟨hmem, hin, -⟩ := of_folderAround_eq_some hfolders hdirectory hroot
      refine ⟨rfl, hfolders root hmem, hin, .workspace hdirectory hmem hin howns, ?_⟩
      show (if Kind.workspace = Kind.module ∧ root ≠ "" then some root else none) = none
      rw [if_neg fun h => Kind.noConfusion h.1]

theorem lookedUp_spec (hw : w.IsInMemory) (hJ : J.Holds w e.conventions)
    (h : e.IsOrderly w.cwd J) {directory : String} (hdirectory : IsLocation directory) :
    J.owns directory (e.lookedUp w directory).1 ∧
      (e.lookedUp w directory).2.IsOrderly w.cwd J ∧ e.Grows (e.lookedUp w directory).2 := by
  have hs := h.surveyed hw hJ
  have hgrows := grows_surveyed e w
  rw [← hgrows.conventions] at hJ
  unfold lookedUp
  generalize e.surveyed w = s at hJ hs hgrows ⊢
  obtain ⟨hown, hagrees⟩ := Survey.ownerOf_agrees hw.rooted hJ.inherited hs.survey directory
  rw [canonical_of_isLocation hdirectory] at hown
  simp only
  generalize s.survey.ownerOf w s.conventions directory = found at hown hagrees ⊢
  exact ⟨hown, hs.with_survey hagrees _, hgrows.trans (.of_forest_eq rfl rfl rfl rfl)⟩

theorem labelled_spec (h : e.IsOrderly w.cwd J) (isModule : Bool) (root : String) :
    (e.labelled w isModule root).IsOrderly w.cwd J ∧ e.Grows (e.labelled w isModule root) := by
  unfold labelled
  split
  · have hagrees : Survey.Agrees J.owns (e.survey.moduleName w e.conventions root).2.owners := by
      rw [Survey.owners_moduleName]
      exact h.survey
    exact ⟨h.with_survey hagrees _, .of_forest_eq rfl rfl rfl rfl⟩
  · exact ⟨h, Grows.refl e⟩

/-- A file was placed below a root: the items on the way down to it are those of the root, of the
package if there is one, and of the file, and no other item is new. -/
def HasPlaced (e e' : Explorer) (root : Container) (directory file : String) (m : ItemNo) : Prop :=
  e.HasChain e' [] (root :: chainBelow root.location directory file) m

theorem HasPlaced.item {e' : Explorer} {root : Container} {directory file : String} {m : ItemNo}
    (h : e.HasPlaced e' root directory file m) :
    ∃ i, e'.forest.item? m = some i ∧ i.kind = .file ∧ i.location = file := by
  obtain ⟨ms, hm, hitems, -⟩ := h
  rw [chainBelow, ← List.cons_append] at hitems
  exact hitems.last hm

theorem HasPlaced.of_forest_eq {s e' : Explorer} (hforest : s.forest = e.forest)
    {root : Container} {directory file : String} {m : ItemNo}
    (h : s.HasPlaced e' root directory file m) : e.HasPlaced e' root directory file m := by
  unfold HasPlaced HasChain at h ⊢
  rw [← hforest]
  exact h

/-- A root that owns a directory can be put in, and below it the chain down to a test file in that
directory. -/
theorem ensureRootChain_spec (h : e.IsOrderly w.cwd J) {k : Container}
    (hroot : J.IsRoot e.folders k.kind k.location k.label) (hlocation : IsLocation k.location)
    {directory name : String} (hdirectory : IsLocation directory)
    (hreach : e.conventions.Reaches k.location directory)
    (hown : J.owns directory (ownerOfRoot (k.item w.cwd))) (hname : IsSegment name)
    (htest : e.conventions.isTestFile name = true) :
    ∃ n u m v, e.ensure w .top k = .ok (n, u) ∧
      u.ensureChain w n (chainBelow k.location directory (below directory name)) = .ok (m, v) ∧
      v.IsOrderly w.cwd J ∧ e.Grows v ∧ e.HasPlaced v k directory (below directory name) m := by
  have hkind := hroot.isRoot
  obtain ⟨n, u, hensure, hu, hgrows, hput⟩ :=
    ensure_spec h .top rfl (Kind.isLeaf_eq_false_of_isRoot hkind) hlocation (.root hroot)
  obtain ⟨r, hr, hrk, hrl⟩ := hput.item
  have hchain : IsChain w.cwd u.conventions J u.folders r
      (chainBelow k.location directory (below directory name)) := by
    rw [hgrows.conventions]
    refine IsChain.congr_owner hrk hrl (p := k.item w.cwd) ?_
    exact isChain_chainBelow hkind hdirectory hreach hown hname htest
  obtain ⟨m, v, hensures, hv, hgrows', ms, hm, hitems, hnew⟩ :=
    ensureChain_spec hu hr hchain (.top hput.mem)
  refine ⟨n, u, m, v, hensure, hensures, hv, hgrows.trans hgrows', n :: ms, hm, ?_, ?_⟩
  · exact .cons ⟨r, hgrows'.forest.keeps n r hr, hrk, hrl⟩ hitems
  · intro j hle hlt
    by_cases hj : j < u.forest.nodes.size
    · rw [hput.only j hle hj]
      exact List.mem_cons_self
    · exact List.mem_cons_of_mem _ (hnew j (Nat.le_of_not_lt hj) hlt)

/-- What comes of placing a file below the owner of its directory or the folder around it. -/
structure IsPlacement (w : Workspace) (J : Judgement) (e e' : Explorer) (directory file : String)
    (owner : Owner) (result : Option ItemNo) : Prop where
  owns : J.owns directory owner
  looked : (e.lookedUp w directory).1 = owner
  placed : ∀ m, result = some m → ∃ root, (owner <|> e.folderAround w directory) = some root ∧
    e.HasPlaced e' (rootContainer w e.conventions owner.isSome root) directory file m
  kept : ∀ m, result = some m → ∀ root, (owner <|> e.folderAround w directory) = some root →
    isLeftOut e.conventions directory root = false
  ignored : result = none → ∀ root, (owner <|> e.folderAround w directory) = some root →
    isLeftOut e.conventions directory root = true
  unchanged : result = none → e'.forest = e.forest

/-- A test file can be placed, unless it belongs nowhere. -/
theorem ensureFile_spec (hw : w.IsInMemory) (hJ : J.Holds w e.conventions)
    (h : e.IsOrderly w.cwd J) {path : String}
    (htest : e.conventions.isTestFile (base w.cwd path) = true) :
    ∃ result e', e.ensureFile w path = .ok (result, e') ∧ e'.IsOrderly w.cwd J ∧ e.Grows e' ∧
      ∃ owner, IsPlacement w J e e' (parent w.cwd path) (canonical w.cwd path) owner result := by
  obtain ⟨directory, name, hdirectory, hname, hfile, htest, hpart, -⟩ :=
    Conventions.exists_below_of_isTestFile (isLocation_canonical hw.rooted path) htest
  have hforest := forest_lookedUp e w directory
  obtain ⟨howns, hs, hgrows⟩ := lookedUp_spec hw hJ h hdirectory
  generalize hlook : e.lookedUp w directory = found at howns hs hgrows hforest
  obtain ⟨owner, s⟩ := found
  simp only at howns hs hgrows hforest
  have hlooked : (e.lookedUp w directory).1 = owner := congrArg Prod.fst hlook
  have haround : e.folderAround w directory = s.folderAround w directory := by
    rw [folderAround, folderAround, hgrows.folders]
  rw [ensureFile_eq e w path rfl hpart hlook, parent, hpart]
  cases hroot : owner <|> s.folderAround w directory with
  | none =>
      refine ⟨none, _, rfl, hs.report _, hgrows.trans (.of_forest_eq rfl rfl rfl rfl), owner,
        howns, hlooked, fun m hm => absurd hm (by simp), fun m hm => absurd hm (by simp),
        fun _ root hsome => ?_, fun _ => hforest⟩
      rw [haround, hroot] at hsome
      exact absurd hsome (by simp)
  | some root =>
      simp only
      rw [← hgrows.conventions] at hJ htest
      obtain ⟨hlocation, hrootloc, hin, hisroot, howner⟩ :=
        rootContainer_spec hJ hs.folders hdirectory howns hroot
      split
      · rename_i hleft
        refine ⟨none, _, rfl, hs.report _, hgrows.trans (.of_forest_eq rfl rfl rfl rfl),
          owner, howns, hlooked, fun m hm => absurd hm (by simp),
          fun m hm => absurd hm (by simp), fun _ other hsome => ?_, fun _ => hforest⟩
        rw [haround, hroot, Option.some.injEq] at hsome
        rw [← hsome, ← hgrows.conventions]
        exact hleft
      · rename_i hleft
        have hreach := Conventions.reaches_of_not_isLeftOut hdirectory hrootloc hin
          (by simpa using hleft)
        have hforestt := forest_labelled s w owner.isSome root
        obtain ⟨ht, hgrowst⟩ := labelled_spec (w := w) hs owner.isSome root
        generalize s.labelled w owner.isSome root = t at ht hgrowst hforestt ⊢
        generalize hk : rootContainer w s.conventions owner.isSome root = k
          at hlocation hisroot howner ⊢
        subst hlocation
        rw [← hgrowst.conventions] at hreach htest
        rw [← hgrowst.folders] at hisroot
        obtain ⟨n, u, m, v, hensure, hensures, hv, hgrowsv, hplaced⟩ := ensureRootChain_spec ht
          hisroot hrootloc hdirectory hreach (howner ▸ howns) hname htest
        rw [← hfile] at hensures hplaced
        refine ⟨some m, v, ?_, hv, (hgrows.trans hgrowst).trans hgrowsv, owner, howns,
          hlooked, ?_, ?_, fun hnone => absurd hnone (by simp),
          fun hnone => absurd hnone (by simp)⟩
        · rw [hensure]
          simp only [bind, Except.bind, hensures]
          rfl
        · rintro m' hm'
          rw [← Option.some.inj hm']
          refine ⟨k.location, haround ▸ hroot, ?_⟩
          rw [← hgrows.conventions, hk]
          exact hplaced.of_forest_eq (hforestt.trans hforest)
        · intro _ _ other hsome
          rw [haround, hroot, Option.some.injEq] at hsome
          rw [← hsome, ← hgrows.conventions]
          simpa using hleft

end Explorer

end TestAtlas
