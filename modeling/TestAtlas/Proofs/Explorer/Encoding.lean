import TestAtlas.Explorer.Call

/-!
# Texts that cannot be encoded

An identifier is made of texts, and a text with a single half of a surrogate pair cannot be encoded.
Only there does it matter which characters stand for halves: if all texts of an identifier can be
encoded, the identifier is the same without any stand-ins, and so is whatever is done with it.
Otherwise nothing is done, and the error says why.
-/

namespace TestAtlas

variable [StandIns]

/-- The error of a text that cannot be encoded, met on the way to an identifier. -/
inductive TreeError.IsEncoding : TreeError → Prop
  | notEncodable {cwd location : String} {kind : Kind} {name : Option String}
      {e : Text.EncodingError} : Id.encodingError? cwd location kind name = some e →
      IsEncoding (.cannotBuildId (.notEncodable e))

/-- Without stand-ins every text can be encoded. -/
theorem TreeError.not_isEncoding (h : StandIns.all = []) (err : TreeError) :
    ¬ err.IsEncoding := by
  rintro ⟨herror⟩
  rw [StandIns.eq_noStandIns h, Id.encodingError?_noStandIns] at herror
  exact absurd herror (by simp)

/-- An identifier is what it is without stand-ins, or one of its texts cannot be encoded. -/
theorem Id.build_cases (cwd location word : String) (name : Option String) :
    Id.build cwd location word name = @Id.build noStandIns cwd location word name ∨
      ∃ err, Id.build cwd location word name = .error err ∧
        (TreeError.cannotBuildId err).IsEncoding := by
  unfold Id.build
  cases Kind.ofWord? word with
  | none => exact Or.inl rfl
  | some kind =>
      cases herror : Id.encodingError? cwd location kind name with
      | none => exact Or.inl (Id.ofKind_eq_of_encodingError? herror)
      | some e => exact Or.inr ⟨_, Id.ofKind_of_encodingError? herror, .notEncodable herror⟩

namespace Forest

theorem wantedIds_cases (cwd location : String) (leaves : List Leaf) :
    wantedIds cwd location leaves = @wantedIds noStandIns cwd location leaves ∨
      ∃ err, wantedIds cwd location leaves = .error err ∧ err.IsEncoding := by
  induction leaves with
  | nil => exact Or.inl rfl
  | cons leaf leaves ih =>
      rw [wantedIds, @wantedIds.eq_2 noStandIns]
      rcases Id.build_cases cwd location leaf.kind (some leaf.name) with
        hbuild | ⟨err, hbuild, herr⟩
      · rw [hbuild]
        cases @Id.build noStandIns cwd location leaf.kind (some leaf.name) with
        | error err => exact Or.inl rfl
        | ok id =>
            rcases ih with hrest | ⟨err, hrest, herr⟩
            · exact Or.inl (by rw [hrest])
            · exact Or.inr ⟨err, by rw [hrest], herr⟩
      · exact Or.inr ⟨_, by rw [hbuild], herr⟩

/-- The leaves of a file item are brought up to date as they are without stand-ins, or the name of
one of them cannot be encoded. -/
theorem reconcile_cases (f : Forest) (cwd : String) (n : ItemNo) (leaves : List Leaf) :
    f.reconcile cwd n leaves = @reconcile noStandIns f cwd n leaves ∨
      ∃ err, f.reconcile cwd n leaves = .error err ∧ err.IsEncoding := by
  unfold reconcile
  simp only
  generalize ((f.item? n).map Item.location).getD "" = location
  rcases wantedIds_cases cwd location leaves with hwanted | ⟨err, hwanted, herr⟩
  · exact Or.inl (by rw [hwanted])
  · exact Or.inr ⟨err, by rw [hwanted], herr⟩

end Forest

namespace Explorer

/-- A container is put in as it is without stand-ins, or its location cannot be encoded. -/
theorem ensure_cases_encoding (e : Explorer) (w : Workspace) (place : Place) (c : Container) :
    e.ensure w place c = @ensure noStandIns e w place c ∨
      ∃ err, e.ensure w place c = .error ⟨err, e⟩ ∧ err.IsEncoding := by
  unfold ensure
  cases herror : Id.encodingError? w.cwd c.location c.kind none with
  | none => exact Or.inl (by rw [Id.ofKind_eq_of_encodingError? herror])
  | some err =>
      rw [Id.ofKind_of_encodingError? herror]
      exact Or.inr ⟨_, rfl, .notEncodable herror⟩

theorem reconcile_cases_encoding (e : Explorer) (w : Workspace) (n : ItemNo)
    (leaves : List Leaf) :
    e.reconcile w n leaves = @reconcile noStandIns e w n leaves ∨
      ∃ err, e.reconcile w n leaves = .error ⟨err, e⟩ ∧ err.IsEncoding := by
  unfold reconcile
  rcases Forest.reconcile_cases e.forest w.cwd n leaves with hreconcile | ⟨err, hreconcile, herr⟩
  · exact Or.inl (by rw [hreconcile])
  · exact Or.inr ⟨err, by rw [hreconcile]; rfl, herr⟩

end Explorer

end TestAtlas
