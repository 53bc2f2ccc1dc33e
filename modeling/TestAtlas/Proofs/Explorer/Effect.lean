import TestAtlas.Proofs.Explorer.Conventions
import TestAtlas.Proofs.Explorer.Leaves
import TestAtlas.Proofs.Explorer.Shape

/-!
# What an update changes, and what it leaves alone

An update that places its document puts in a root, a package and a file item where they are missing,
each behind the others at its place, and brings the leaves of the file item into line with the
document.  Nothing else comes, goes or moves.  The main statement is `Session.Arises.update_effect`.
-/

namespace TestAtlas

open TestAtlas.Path

namespace Forest

/-! ## What is new stands behind the others -/

/-- At each place the members that are new stand behind the others, and they are items that were
not made before. -/
def AppendsNew (f g : Forest) : Prop :=
  ∀ place, ∃ new, g.members place = f.members place ++ new ∧ ∀ n ∈ new, f.nodes.size ≤ n

theorem AppendsNew.of_members_eq {f g : Forest}
    (h : ∀ place, g.members place = f.members place) : f.AppendsNew g :=
  fun place => ⟨[], by rw [h place, List.append_nil], by simp⟩

theorem AppendsNew.trans {f g h : Forest} (hfg : f.AppendsNew g) (hgh : g.AppendsNew h)
    (hsize : f.nodes.size ≤ g.nodes.size) : f.AppendsNew h := by
  intro place
  obtain ⟨new, hg, hnew⟩ := hfg place
  obtain ⟨more, hh, hmore⟩ := hgh place
  refine ⟨new ++ more, by rw [hh, hg, List.append_assoc], ?_⟩
  intro n hn
  rcases List.mem_append.mp hn with hn | hn
  · exact hnew n hn
  · exact Nat.le_trans hsize (hmore n hn)

theorem appendsNew_put {f : Forest} {place : Place} (hplace : f.HasPlace place) (i : Item) :
    f.AppendsNew (f.put place i) := by
  intro p
  rw [members_put i hplace]
  split
  · rename_i hp
    refine ⟨[f.nodes.size], by rw [hp], ?_⟩
    intro n hn
    rw [List.mem_singleton.mp hn]
  · exact ⟨[], (List.append_nil _).symm, by simp⟩

section Way

variable {cwd : String} {fits : Option Item → Item → Prop} {f : Forest} {rank : Item → Nat}

/-- A way down comes through each place once. -/
theorem Lineage.eq_of_mem_place (h : f.IsOrderly cwd fits)
    (hrank : ∀ p i, fits (some p) i → rank p < rank i) {ns : List ItemNo} {n : ItemNo}
    (hns : f.Lineage ns n) {m m' : ItemNo} (hm : m ∈ ns) (hm' : m' ∈ ns) {place : Place}
    (hplace : m ∈ f.members place) (hplace' : m' ∈ f.members place) : m = m' := by
  induction hns with
  | top _ => rw [List.mem_singleton.mp hm, List.mem_singleton.mp hm']
  | @under ns k n hk hn ih =>
      -- a child of the last item before would come twice on the way down to it
      have hchild : ∀ {l l' : ItemNo}, l ∈ ns → l' = n → l ∈ f.members place →
          l' ∈ f.members place → False := by
        rintro l _ hl rfl hlplace hnplace
        obtain rfl := h.consistent.place_unique hnplace hn
        have hnodup := (Lineage.nodup (h.isRanked hrank) (.under hk hlplace)).1
        exact (List.nodup_append.mp hnodup).2.2 l hl l (List.mem_singleton_self l) rfl
      rcases List.mem_append.mp hm with hm | hm <;> rcases List.mem_append.mp hm' with hm' | hm'
      · exact ih hm hm'
      · exact (hchild hm (List.mem_singleton.mp hm') hplace hplace').elim
      · exact (hchild hm' (List.mem_singleton.mp hm) hplace' hplace).elim
      · rw [List.mem_singleton.mp hm, List.mem_singleton.mp hm']

/-- If all that is new lies on one way down, there is at most one new item at each place. -/
theorem AppendsNew.members_cases {f g : Forest} (hnew : f.AppendsNew g) (h : g.IsOrderly cwd fits)
    (hrank : ∀ p i, fits (some p) i → rank p < rank i) {ns : List ItemNo} {n : ItemNo}
    (hns : g.Lineage ns n)
    (honly : ∀ m, f.nodes.size ≤ m → m < g.nodes.size → m ∈ ns) (place : Place) :
    g.members place = f.members place ∨
      ∃ m ∈ ns, f.nodes.size ≤ m ∧ g.members place = f.members place ++ [m] := by
  obtain ⟨new, hmembers, hfresh⟩ := hnew place
  have hplace : ∀ m ∈ new, m ∈ g.members place := by
    intro m hm
    rw [hmembers]
    exact List.mem_append_right _ hm
  have hway : ∀ m ∈ new, m ∈ ns := fun m hm =>
    honly m (hfresh m hm) (lt_size_of_mem h.consistent (hplace m hm))
  have hnodup : new.Nodup := by
    have hall := h.consistent.nodup place
    rw [hmembers] at hall
    exact (List.nodup_append.mp hall).2.1
  match new, hmembers, hfresh, hplace, hway, hnodup with
  | [], hmembers, _, _, _, _ => exact Or.inl (by rw [hmembers, List.append_nil])
  | [m], hmembers, hfresh, _, hway, _ =>
      exact Or.inr ⟨m, hway m (by simp), hfresh m (by simp), hmembers⟩
  | m :: m' :: rest, _, _, hplace, hway, hnodup =>
      have heq := hns.eq_of_mem_place h hrank (hway m (by simp)) (hway m' (by simp))
        (hplace m (by simp)) (hplace m' (by simp))
      rw [heq, List.nodup_cons] at hnodup
      exact absurd List.mem_cons_self hnodup.1

end Way

/-! ## What a reconciliation returns -/

section Returned

variable {f g : Forest} {n : ItemNo} {wanted : List String} {r : Reconciliation}

theorem IsReconciled.added_eq (h : IsReconciled f g n wanted r) :
    r.added = (g.ids (.under n)).filter (· ∉ f.ids (.under n)) := by
  have hold : ((f.ids (.under n)).filter (· ∈ wanted)).filter (· ∉ f.ids (.under n)) = [] := by
    rw [List.filter_eq_nil_iff]
    intro id hid
    simpa using (List.mem_filter.mp hid).1
  rw [h.added, h.ids, List.filter_append, hold, List.nil_append, List.filter_filter]
  simp

theorem IsReconciled.removed_eq (h : IsReconciled f g n wanted r) :
    r.removed = (f.ids (.under n)).filter (· ∉ g.ids (.under n)) := by
  rw [h.removed]
  apply List.filter_congr
  intro id _
  simp only [h.mem_ids_iff]

end Returned

end Forest

namespace Explorer

variable {w : Workspace} {J : Judgement} {e e' : Explorer}

/-! ## Placing a file -/

/-- Nothing is asked of what stands below what. -/
abbrev FitsAnywhere : Option Item → Item → Prop := fun _ _ => True

theorem IsOrderly.fitsAnywhere {cwd : String} (h : e.IsOrderly cwd J) :
    e.forest.IsOrderly cwd FitsAnywhere :=
  h.forest.of_fits fun _ _ _ _ _ _ _ _ => trivial

theorem ensure_appendsNew (h : e.forest.IsOrderly w.cwd FitsAnywhere) {place : Place}
    {owner : Option Item} (howner : e.forest.ownerAt place = some owner) {k : Container}
    (hk : k.kind.isLeaf = false) (hl : IsLocation k.location) {n : ItemNo}
    (hensure : e.ensure w place k = .ok (n, e')) :
    e'.forest.IsOrderly w.cwd FitsAnywhere ∧ e.forest.AppendsNew e'.forest ∧
      e.forest.nodes.size ≤ e'.forest.nodes.size ∧ ∃ i, e'.forest.item? n = some i := by
  have hplace := Forest.hasPlace_of_ownerAt howner
  rcases ensure_cases h.consistent hplace hk with
    ⟨m, i, hfound, -, hi, -⟩ | ⟨hfind, hmade, -, hi⟩
  · rw [hfound, Except.ok.injEq, Prod.mk.injEq] at hensure
    obtain ⟨rfl, rfl⟩ := hensure
    exact ⟨h, .of_members_eq fun _ => rfl, Nat.le_refl _, i, hi⟩
  · rw [hmade, Except.ok.injEq, Prod.mk.injEq] at hensure
    obtain ⟨rfl, rfl⟩ := hensure
    refine ⟨h.put howner (Container.isGenuine_item hk hl w.cwd) trivial hfind,
      Forest.appendsNew_put hplace _, ?_, _, hi⟩
    exact (Forest.grows_put hplace _).keeps.size_le

theorem ensureChain_appendsNew {n m : ItemNo} {ks : List Container}
    (h : e.forest.IsOrderly w.cwd FitsAnywhere) {i : Item} (hi : e.forest.item? n = some i)
    (hks : ∀ k ∈ ks, k.kind.isLeaf = false ∧ IsLocation k.location)
    (hchain : e.ensureChain w n ks = .ok (m, e')) : e.forest.AppendsNew e'.forest := by
  induction ks generalizing e n i with
  | nil =>
      rw [← (Prod.mk.inj (Except.ok.inj hchain)).2]
      exact .of_members_eq fun _ => rfl
  | cons k ks ih =>
      obtain ⟨⟨l, t⟩, hensure, hchain⟩ := exists_of_bind_eq_ok hchain
      obtain ⟨hk, hl⟩ := hks k (by simp)
      have howner := Forest.ownerAt_under hi
      obtain ⟨ht, hnew, hsize, j, hj⟩ := ensure_appendsNew h howner hk hl hensure
      exact hnew.trans (ih ht hj (fun k' hk' => hks k' (by simp [hk'])) hchain) hsize

theorem of_mem_chainBelow {root directory file : String} {k : Container}
    (hk : k ∈ chainBelow root directory file) :
    k = .plain .package directory ∨ k = .plain .file file := by
  unfold chainBelow at hk
  rw [List.mem_append, List.mem_singleton] at hk
  refine hk.imp_left fun hpackage => ?_
  split at hpackage
  · exact absurd hpackage (by simp)
  · exact List.mem_singleton.mp hpackage

/-- To place a file is to put items behind those that are there. -/
theorem ensureFile_appendsNew (hw : w.IsInMemory) (hJ : J.Holds w e.conventions)
    (h : e.IsOrderly w.cwd J) {path : String} {result : Option ItemNo}
    (hensure : e.ensureFile w path = .ok (result, e')) : e.forest.AppendsNew e'.forest := by
  have hfile : IsLocation (canonical w.cwd path) := isLocation_canonical hw.rooted path
  generalize hpath : canonical w.cwd path = file at hfile
  have hdirectory := isLocation_directoryPart hfile
  generalize hpart : directoryPart file = directory at hdirectory
  have hforest := forest_lookedUp e w directory
  obtain ⟨howns, hs, hgrows⟩ := lookedUp_spec hw hJ h hdirectory
  generalize hlook : e.lookedUp w directory = found at howns hs hgrows hforest
  obtain ⟨owner, s⟩ := found
  simp only at howns hs hgrows hforest
  rw [← hgrows.conventions] at hJ
  rw [ensureFile_eq e w path hpath hpart hlook] at hensure
  rw [← hforest]
  split at hensure
  · rw [← (Prod.mk.inj (Except.ok.inj hensure)).2]
    exact .of_members_eq fun _ => rfl
  · rename_i root hroot
    split at hensure
    · rw [← (Prod.mk.inj (Except.ok.inj hensure)).2]
      exact .of_members_eq fun _ => rfl
    · obtain ⟨⟨n, t⟩, htop, hensure⟩ := exists_of_bind_eq_ok hensure
      obtain ⟨⟨m, u⟩, hchain, hensure⟩ := exists_of_bind_eq_ok hensure
      rw [← (Prod.mk.inj (Except.ok.inj hensure)).2]
      obtain ⟨hlocation, hrootloc, -, hisroot, -⟩ :=
        rootContainer_spec hJ hs.folders hdirectory howns hroot
      have hforest' := forest_labelled s w owner.isSome root
      have hfits := (labelled_spec (w := w) hs owner.isSome root).1.fitsAnywhere
      obtain ⟨ht, hnew, hsize, i, hi⟩ := ensure_appendsNew hfits
        (show Forest.ownerAt _ .top = some none from rfl)
        (Kind.isLeaf_eq_false_of_isRoot hisroot.isRoot) (hlocation.symm ▸ hrootloc) htop
      rw [hforest'] at hnew hsize
      refine hnew.trans (ensureChain_appendsNew ht hi ?_ hchain) hsize
      intro k hk
      rcases of_mem_chainBelow hk with rfl | rfl
      · exact ⟨rfl, hdirectory⟩
      · exact ⟨rfl, hfile⟩

/-! ## The effect of an update -/

/-- What an update that places its document does.  The way leads from the top through a root, and
through a package if the file does not lie directly in the root, down to the item of the file. -/
structure HasEffect (cwd : String) (leaves : List Leaf) (file text : String) (e e' : Explorer)
    (root : Container) (way : List ItemNo) (n : ItemNo) (r : Reconciliation) : Prop where
  isRoot : root.kind.isRoot = true
  lineage : e'.forest.Lineage way n
  items : AreItemsOf e'.forest way (root :: chainBelow root.location (directoryPart file) file)
  /-- Below one root the file has one item. -/
  alone : ∀ m i, e'.forest.item? m = some i → i.kind = .file → i.location = file →
    (∃ top, e'.forest.IsBelow top n ∧ e'.forest.IsBelow top m) → m = n
  /-- No item changes, whether it is in the tree or not. -/
  keeps : e.forest.Keeps e'.forest
  /-- Only items of the way are made, and each stands behind the others at its place. -/
  made : ∀ place, place ≠ .under n → e'.forest.members place = e.forest.members place ∨
    ∃ m ∈ way, e.forest.nodes.size ≤ m ∧
      e'.forest.members place = e.forest.members place ++ [m]
  /-- All that was in the tree stays there, but for leaves of the file that are taken out. -/
  stays : ∀ m, e.forest.InTree m → (m ∈ e.forest.children n → m ∈ e'.forest.children n) →
    e'.forest.InTree m
  shows : e'.forest.Shows cwd n file leaves
  /-- Leaves that were there before and are there after are the same items in the same order, and
  those that are new stand behind them. -/
  kept : ∃ new, e'.forest.children n = (e.forest.children n).filter (fun m =>
      (e.forest.idOf? m).any (· ∈ e'.forest.ids (.under n))) ++ new ∧
    ∀ m ∈ new, e.forest.nodes.size ≤ m
  added : r.added = (e'.forest.ids (.under n)).filter (· ∉ e.forest.ids (.under n))
  removed : r.removed = (e.forest.ids (.under n)).filter (· ∉ e'.forest.ids (.under n))
  remembered : e'.documents = e.documents.insert file text

section Updated

variable {leaves : List Leaf} {file text : String} {s : Explorer} {owner : Owner} {n : ItemNo}
  {r : Option Reconciliation}

/-- All that was in the tree before an update is in it afterwards, but for leaves of the file. -/
theorem HasUpdated.stays (hupdated : HasUpdated w J leaves file text e s e' owner (some n) r)
    {m : ItemNo} (hm : e.forest.InTree m)
    (hchild : m ∈ e.forest.children n → m ∈ e'.forest.children n) : e'.forest.InTree m := by
  obtain ⟨hn, i, hi, hfile, -⟩ := hupdated.item rfl
  obtain ⟨rec, -, hdone⟩ := hupdated.reconciled n rfl
  have hs := hupdated.orderly.forest
  have hms : s.forest.InTree m := hm.grows hupdated.grows.forest
  obtain ⟨j, hj⟩ := hs.exists_item_of_inTree hms
  cases hleaf : j.kind.isLeaf with
  | false => exact hms.of_isReconciled hs hi hfile hdone hj hleaf
  | true =>
      -- a leaf stays with its file item, and that it goes on being there is known of the file at hand
      obtain ⟨k, p, hk, hmk, hp, hpfile, -⟩ := hs.leaf_stands hms hj hleaf
      have hk' : e'.forest.InTree k :=
        hk.of_isReconciled hs hi hfile hdone hp (by rw [hpfile]; rfl)
      refine .under hk' ?_
      by_cases hkn : k = n
      · subst hkn
        rw [hupdated.grows.leaves.children_eq hi hfile] at hmk
        exact hchild hmk
      · have hframe : e'.forest.children k = s.forest.children k :=
          hdone.frame (.under k) (by simpa using hkn)
        rw [hframe]
        exact hmk

theorem HasUpdated.kept (hupdated : HasUpdated w J leaves file text e s e' owner (some n) r)
    (h : e.IsOrderly w.cwd J) :
    ∃ new, e'.forest.children n = (e.forest.children n).filter (fun m =>
      (e.forest.idOf? m).any (· ∈ e'.forest.ids (.under n))) ++ new ∧
        ∀ m ∈ new, e.forest.nodes.size ≤ m := by
  obtain ⟨-, i, hi, hfile, -⟩ := hupdated.item rfl
  obtain ⟨rec, -, hdone⟩ := hupdated.reconciled n rfl
  obtain ⟨new, hchildren, hnew⟩ := hdone.children
  have hkeeps := hupdated.grows.forest.keeps
  refine ⟨new, ?_, fun m hm => Nat.le_trans hkeeps.size_le (hnew m hm)⟩
  rw [hchildren, hupdated.grows.leaves.children_eq hi hfile]
  congr 1
  apply List.filter_congr
  intro m hm
  obtain ⟨j, hj⟩ := Forest.exists_item? (Forest.lt_size_of_mem h.forest.consistent hm)
  simp only [Forest.idOf?, hj, hkeeps m j hj, hdone.mem_ids_iff]

theorem HasUpdated.made (hupdated : HasUpdated w J leaves file text e s e' owner (some n) r)
    (hw : w.IsInMemory) (hJ : J.Holds w e.conventions) (h : e.IsOrderly w.cwd J)
    {way : List ItemNo} (hway : s.forest.Lineage way n)
    (honly : ∀ m, e.forest.nodes.size ≤ m → m < s.forest.nodes.size → m ∈ way) {place : Place}
    (hplace : place ≠ .under n) : e'.forest.members place = e.forest.members place ∨
      ∃ m ∈ way, e.forest.nodes.size ≤ m ∧
        e'.forest.members place = e.forest.members place ++ [m] := by
  obtain ⟨path, -, hensure⟩ := hupdated.ensured
  obtain ⟨rec, -, hdone⟩ := hupdated.reconciled n rfl
  have hnew := ensureFile_appendsNew hw hJ h hensure
  rw [hdone.frame place hplace]
  exact hnew.members_cases hupdated.orderly.forest Belongs.level_lt hway honly place

/-- An update that places its document has the effect that is described, below the owner that was
looked up or else the folder around the document. -/
theorem HasUpdated.hasEffect (hupdated : HasUpdated w J leaves file text e s e' owner (some n) r)
    (hw : w.IsInMemory) (hJ : J.Holds w e.conventions) (h : e.IsOrderly w.cwd J)
    (he' : e'.IsOrderly w.cwd J) (hleaves : ∀ leaf ∈ leaves, leaf.IsGenuine) :
    ∃ base way rec, (owner <|> e.folderAround w (directoryPart file)) = some base ∧
      r = some rec ∧ HasEffect w.cwd leaves file text e e'
        (rootContainer w e.conventions owner.isSome base) way n rec := by
  obtain ⟨base, hbase, way, hway, hitems, honly⟩ := hupdated.placement.placed n rfl
  rw [List.nil_append] at hway
  obtain ⟨hn, i, hi, hfile, hlocation⟩ := hupdated.item rfl
  obtain ⟨rec, hrec, hdone⟩ := hupdated.reconciled n rfl
  have hids : s.forest.ids (.under n) = e.forest.ids (.under n) :=
    hupdated.grows.leaves.ids_eq h.forest.consistent hupdated.grows.forest.keeps hi hfile
  have hkeeps := hupdated.grows.forest.keeps.trans hdone.keeps
  have hs := hupdated.orderly.forest
  have hleaf : i.kind.isLeaf = false := by rw [hfile]; rfl
  refine ⟨base, way, rec, hbase, hrec, ?_⟩
  constructor
  case isRoot => exact isRoot_rootContainer w e.conventions owner.isSome base
  case lineage => exact hway.of_isReconciled hs hi hfile hdone hi hleaf
  case items =>
    refine hitems.imp fun m k hm => ?_
    obtain ⟨j, hj, hkind⟩ := hm
    exact ⟨j, hdone.keeps m j hj, hkind⟩
  case alone =>
    rintro m j hj hjfile hjlocation ⟨top, hbelow, hbelow'⟩
    exact he'.forest.file_eq hbelow' hbelow hj (hdone.keeps n i hi) hjfile hfile
      (hjlocation.trans hlocation.symm)
  case keeps => exact hkeeps
  case made => exact fun place hplace => hupdated.made hw hJ h hway honly hplace
  case stays => exact fun m hm => hupdated.stays hm
  case shows => exact hdone.shows hleaves
  case kept => exact hupdated.kept h
  case added => rw [hdone.added_eq, hids]
  case removed => rw [hdone.removed_eq, hids]
  case remembered => exact hupdated.remembered n rfl

end Updated

/-- An update is answered.  It changes nothing, or it places its document below the owner of its
directory, or below the folder around it if there is none, and has the effect of that. -/
theorem call_update_effect (hw : w.IsInMemory) (hJ : J.Holds w e.conventions)
    (h : e.IsOrderly w.cwd J) (p : SymbolProvider) (d : Document) :
    ∃ r e', e.call w p (.update d) = .ok (.reconciled r, e') ∧
      (r = none ∧ e'.forest = e.forest ∧ e'.documents = e.documents ∨
        ∃ owner base way n rec, r = some rec ∧
          ((e.report (symbolEvents p d)).lookedUp w (parent w.cwd d.path)).1 = owner ∧
          (owner <|> e.folderAround w (parent w.cwd d.path)) = some base ∧
          HasEffect w.cwd (p.leaves d) (canonical w.cwd d.path) d.text e e'
            (rootContainer w e.conventions owner.isSome base) way n rec) := by
  cases htest : e.conventions.isTestFile (base w.cwd d.path) with
  | false => exact ⟨none, e, call_update_of_not_test htest, Or.inl ⟨rfl, rfl, rfl⟩⟩
  | true =>
      obtain ⟨r, e', hfinish, he', t, owner, result, hupdated⟩ := finish_update_spec hw hJ h p htest
      refine ⟨r, e', by rw [call_update_of_isTestFile htest, hfinish], ?_⟩
      cases result with
      | none =>
          obtain ⟨rfl, rfl⟩ := hupdated.ignored rfl
          exact Or.inl ⟨rfl, hupdated.placement.unchanged rfl, hupdated.grows.documents⟩
      | some n =>
          obtain ⟨base, way, rec, hbase, hrec, heffect⟩ :=
            hupdated.hasEffect hw hJ (h.report _) he' (p.isGenuine_leaves d)
          exact Or.inr ⟨owner, base, way, n, rec, hrec, hupdated.placement.looked, hbase,
            { heffect with }⟩

end Explorer

end TestAtlas
