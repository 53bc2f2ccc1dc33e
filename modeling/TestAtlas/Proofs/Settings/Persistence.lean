import TestAtlas.Proofs.Json.Nesting
import TestAtlas.Settings.Storage

/-!
# Saved settings are loaded again

Settings that can be saved as a whole are found again when the file is loaded: over the default
members lie those that were saved, and the version is the current one.  What was in the file before
does not matter, and no object of the program is changed.  Only settings with too many containers
inside one another are written to a file that cannot be loaded afterwards (`tryLoad_of_save`).
-/

namespace TestAtlas

namespace Json

/-! ## Writing a member into an object -/

theorem map_fst_insertMember (name : String) (value : Json) (members : List (String × Json)) :
    (insertMember name value members).map Prod.fst =
      if name ∈ members.map Prod.fst then members.map Prod.fst
      else members.map Prod.fst ++ [name] := by
  induction members with
  | nil => simp [insertMember]
  | cons m members ih =>
      rw [insertMember]
      by_cases hname : m.1 = name
      · simp [hname]
      · rw [if_neg hname, List.map_cons, ih]
        by_cases hmem : name ∈ members.map Prod.fst
        · simp [hmem]
        · simp [hmem, Ne.symm hname]

theorem mem_names_insertMember {name : String} {members : List (String × Json)}
    (h : name ∈ members.map Prod.fst) (name' : String) (value : Json) :
    name ∈ (insertMember name' value members).map Prod.fst := by
  rw [map_fst_insertMember]
  split
  · exact h
  · exact List.mem_append_left _ h

theorem mem_of_mem_insertMember {name : String} {value : Json} {members : List (String × Json)}
    {m : String × Json} (h : m ∈ insertMember name value members) :
    m = (name, value) ∨ m ∈ members := by
  induction members with
  | nil => exact Or.inl (List.mem_singleton.mp h)
  | cons first members ih =>
      rw [insertMember] at h
      split at h
      · rcases List.mem_cons.mp h with h | h
        · exact Or.inl h
        · exact Or.inr (List.mem_cons_of_mem _ h)
      · rcases List.mem_cons.mp h with h | h
        · exact Or.inr (h ▸ List.mem_cons_self)
        · exact (ih h).imp_right (List.mem_cons_of_mem _)

/-- The later value of a member counts. -/
theorem insertMember_insertMember (name : String) (value value' : Json)
    (members : List (String × Json)) :
    insertMember name value (insertMember name value' members) =
      insertMember name value members := by
  induction members with
  | nil => simp [insertMember]
  | cons m members ih =>
      by_cases hname : m.1 = name
      · simp [insertMember, hname]
      · simp [insertMember, hname, ih]

/-- A member that is there may be written before or after another one. -/
theorem insertMember_comm {name name' : String} (hne : name ≠ name') (value value' : Json)
    {members : List (String × Json)} (h : name ∈ members.map Prod.fst) :
    insertMember name value (insertMember name' value' members) =
      insertMember name' value' (insertMember name value members) := by
  induction members with
  | nil => exact absurd h (by simp)
  | cons m members ih =>
      by_cases hname : m.1 = name
      · simp [insertMember, hname, hne]
      · have hmem : name ∈ members.map Prod.fst := by
          rw [List.map_cons, List.mem_cons] at h
          exact h.resolve_left (Ne.symm hname)
        by_cases hname' : m.1 = name'
        · simp [insertMember, hname', Ne.symm hne]
        · simp [insertMember, hname, hname', ih hmem]

theorem IsPlain.insertMember {members : List (String × Json)} (h : (Json.object members).IsPlain)
    (name : String) {value : Json} (hvalue : value.IsPlain) :
    (Json.object (Json.insertMember name value members)).IsPlain := by
  cases h with
  | object hnames hmembers =>
      refine .object ?_ fun m hm => ?_
      · rw [map_fst_insertMember]
        split
        · exact hnames
        · rename_i hnew
          rw [List.nodup_append]
          refine ⟨hnames, by simp, ?_⟩
          rintro a ha b hb rfl
          exact hnew (List.mem_singleton.mp hb ▸ ha)
      · rcases mem_of_mem_insertMember hm with rfl | hm
        · exact hvalue
        · exact hmembers m hm

end Json

namespace Settings

open Text

/-! ## The current version -/

theorem overlay_cons (base upper : List (String × Json)) (m : String × Json) :
    overlay base (m :: upper) = overlay (Json.insertMember m.1 m.2 base) upper := rfl

theorem withVersion_insertMember (value : Json) (members : List (String × Json)) :
    withVersion (Json.insertMember "version" value members) = withVersion members :=
  Json.insertMember_insertMember _ _ _ members

theorem insertMember_withVersion (value : Json) (members : List (String × Json)) :
    Json.insertMember "version" value (withVersion members) =
      Json.insertMember "version" value members :=
  Json.insertMember_insertMember _ _ _ members

theorem withVersion_cons (m : String × Json) (members : List (String × Json)) :
    withVersion (m :: members) =
      if m.1 = "version" then ("version", .str currentVersion) :: members
      else m :: withVersion members := by
  rw [withVersion, Json.insertMember]
  rfl

/-- What version the lower members have does not matter. -/
theorem withVersion_overlay_withVersion {base : List (String × Json)}
    (h : "version" ∈ base.map Prod.fst) (upper : List (String × Json)) :
    withVersion (overlay (withVersion base) upper) = withVersion (overlay base upper) := by
  induction upper generalizing base with
  | nil => exact withVersion_insertMember _ base
  | cons m upper ih =>
      rw [overlay_cons, overlay_cons]
      by_cases hname : m.1 = "version"
      · rw [hname, insertMember_withVersion]
      · have hcomm : Json.insertMember m.1 m.2 (withVersion base) =
            withVersion (Json.insertMember m.1 m.2 base) :=
          (Json.insertMember_comm (Ne.symm hname) _ _ h).symm
        rw [hcomm]
        exact ih (Json.mem_names_insertMember h _ _)

/-- Nor does the version of the upper members. -/
theorem withVersion_overlay {base : List (String × Json)} (h : "version" ∈ base.map Prod.fst)
    (upper : List (String × Json)) :
    withVersion (overlay base (withVersion upper)) = withVersion (overlay base upper) := by
  induction upper generalizing base with
  | nil => exact withVersion_insertMember _ base
  | cons m upper ih =>
      rw [withVersion_cons, overlay_cons]
      split
      · rename_i hname
        have hlower := withVersion_overlay_withVersion
          (Json.mem_names_insertMember h "version" m.2) upper
        rw [withVersion_insertMember] at hlower
        rw [overlay_cons, hname]
        exact hlower
      · rw [overlay_cons]
        exact ih (Json.mem_names_insertMember h _ _)

/-! ## The file -/

theorem decodeStrict_encode (cs : List Char) : Utf8.decodeStrict (Utf8.encode cs) = some cs := by
  rw [Utf8.decodeStrict, Utf8.decode_encode]
  induction cs with
  | nil => rfl
  | cons c cs ih =>
      rw [List.map_cons, List.mapM_cons, ih]
      rfl

section Save

variable {members : List (String × Json)}

theorem isPlain_withVersion (h : (Json.object members).IsPlain) :
    (Json.object (withVersion members)).IsPlain :=
  h.insertMember "version" (.str currentVersion)

/-- What is written is all there, and nothing but it. -/
theorem of_writeOver_eq_ok {before file : StoredFile} {payload : List (String × Json)}
    (h : writeOver before payload = .ok file) :
    Json.writeError? maxWritten (.object payload) = none ∧
      file = .bytes (Utf8.encode (Json.write .indented (.object payload)).toList) := by
  unfold writeOver at h
  split at h
  · exact absurd h (by simp)
  · split at h
    · exact absurd h (by simp)
    · rename_i herror
      exact ⟨herror, (Except.ok.inj h).symm⟩

theorem writeOver_eq_ok {before : StoredFile} (hbefore : before ≠ .directory)
    {payload : List (String × Json)}
    (herror : Json.writeError? maxWritten (.object payload) = none) : writeOver before payload =
      .ok (.bytes (Utf8.encode (Json.write .indented (.object payload)).toList)) := by
  rw [writeOver, if_neg hbefore, herror]

/-- What was written is loaded again. -/
theorem tryLoad_of_writeOver {payload : List (String × Json)}
    (hplain : (Json.object payload).IsPlain) {before file : StoredFile}
    (hwrite : writeOver before payload = .ok file)
    (hshallow : (Json.object payload).nesting ≤ maxNesting) :
    tryLoad file = .ok (withVersion (overlay default.members payload)) := by
  obtain ⟨herror, rfl⟩ := of_writeOver_eq_ok hwrite
  have hlong := hplain.hasLongInteger_eq_false herror
  simp only [tryLoad, StoredFile.tooDeep?, StoredFile.json?, decodeStrict_encode,
    Option.bind_some, Json.tooDeep?_write hplain hlong hshallow, Json.parse?_write hplain hlong]

/-- What was written with containers too deep inside one another is given up. -/
theorem tryLoad_of_writeOver_of_deep {payload : List (String × Json)}
    (hplain : (Json.object payload).IsPlain) {before file : StoredFile}
    (hwrite : writeOver before payload = .ok file)
    (hdeep : maxNesting < (Json.object payload).nesting) : ∃ e, tryLoad file = .error e := by
  obtain ⟨herror, rfl⟩ := of_writeOver_eq_ok hwrite
  have hlong := hplain.hasLongInteger_eq_false herror
  cases htoo : Json.tooDeep? maxNesting (Json.write .indented (.object payload)).toList with
  | none =>
      have hshallow := (Json.tooDeep?_write_eq_none_iff hplain hlong).mp htoo
      exact absurd hshallow (Nat.not_le_of_lt hdeep)
  | some e =>
      refine ⟨e, ?_⟩
      simp only [tryLoad, StoredFile.tooDeep?, decodeStrict_encode, Option.bind_some, htoo]

end Save

end Settings

namespace Objects

open Settings Text

/-! ## Saving an object -/

variable {o o' : Objects} {k : Nat} {before : StoredFile} {directoryBlocked : Bool}
  {result : Except SaveError StoredFile}

theorem get_copy_of_lt (o : Objects) (k : Nat) {j : Nat} (hj : j < o.members.size) :
    (o.copy k).2.get j = o.get j := by
  rw [get, copy, Array.getElem?_push_lt hj, get, Array.getElem?_eq_getElem hj]

theorem get_copy_size (o : Objects) (k : Nat) : (o.copy k).2.get o.members.size = o.get k := by
  simp [get, copy]

theorem get_setMember_of_ne (o : Objects) {k j : Nat} (hne : k ≠ j) (name : String)
    (value : Json) : (o.setMember k name value).get j = o.get j := by
  rw [get, setMember, Array.getElem?_modify, if_neg hne, get]

theorem get_setMember_self (o : Objects) {k : Nat} (hk : k < o.members.size) (name : String)
    (value : Json) : (o.setMember k name value).get k = Json.insertMember name value (o.get k) := by
  rw [get, setMember, Array.getElem?_modify, if_pos rfl, get, Array.getElem?_eq_getElem hk]
  rfl

/-- What is written is the object with the current version, and that version stands in a copy. -/
theorem save_of_not_blocked (o : Objects) (k : Nat) (before : StoredFile) :
    o.save k before false = (writeOver before (withVersion (o.get k)),
      (o.copy k).2.setMember o.members.size "version" (.str currentVersion)) := by
  have hpayload := get_setMember_self (o.copy k).2 (k := o.members.size)
    (by simp [copy]) "version" (.str currentVersion)
  rw [get_copy_size] at hpayload
  rw [withVersion, ← hpayload]
  rfl

/-- Saving changes no object that is there. -/
theorem get_of_save (h : o.save k before directoryBlocked = (result, o')) {j : Nat}
    (hj : j < o.members.size) : o'.get j = o.get j := by
  cases directoryBlocked with
  | true =>
      obtain ⟨-, rfl⟩ := Prod.mk.inj h
      rfl
  | false =>
      rw [save_of_not_blocked] at h
      obtain ⟨-, rfl⟩ := Prod.mk.inj h
      rw [get_setMember_of_ne _ (Nat.ne_of_gt hj), get_copy_of_lt o k hj]

theorem writeOver_of_save {file : StoredFile}
    (h : o.save k before directoryBlocked = (.ok file, o')) :
    writeOver before (withVersion (o.get k)) = .ok file := by
  cases directoryBlocked with
  | true => exact absurd (Prod.mk.inj h).1 (by simp)
  | false =>
      rw [save_of_not_blocked] at h
      exact (Prod.mk.inj h).1

theorem exists_save (o : Objects) (k : Nat) {before : StoredFile} (hbefore : before ≠ .directory)
    (herror : Json.writeError? maxWritten (.object (withVersion (o.get k))) = none) :
    ∃ file o', o.save k before false = (.ok file, o') := by
  rw [save_of_not_blocked, writeOver_eq_ok hbefore herror]
  exact ⟨_, _, rfl⟩

/-- Settings that are saved as a whole are loaded again, over the default ones and with the current
version, unless the containers in what was written lie too deep inside one another: then loading
fails.  No object is changed. -/
theorem tryLoad_of_save (hplain : (Json.object (o.get k)).IsPlain) {file : StoredFile}
    (hsave : o.save k before directoryBlocked = (.ok file, o')) :
    ((Json.object (withVersion (o.get k))).nesting ≤ maxNesting →
      tryLoad file = .ok (withVersion (overlay default.members (o.get k)))) ∧
    (maxNesting < (Json.object (withVersion (o.get k))).nesting →
      ∃ e, tryLoad file = .error e) ∧
    ∀ j < o.members.size, o'.get j = o.get j := by
  have hwrite := writeOver_of_save hsave
  have hplain' := isPlain_withVersion hplain
  refine ⟨fun hshallow => ?_, fun hdeep => ?_, fun j hj => get_of_save hsave hj⟩
  · rw [tryLoad_of_writeOver hplain' hwrite hshallow, withVersion_overlay (by decide)]
  · exact tryLoad_of_writeOver_of_deep hplain' hwrite hdeep

/-- Settings with another version, quotes, control characters and nested containers, saved over a
file that is no JSON. -/
theorem tryLoad_of_save_awkward :
    let members : List (String × Json) :=
      [("manifest_name", .str "a\"b\\\n\x01é😀"),
        ("version", .int (-1000000000000000000000000000000)),
        ("", .object [("k", .list [.null, .list [], .bool true]), ("l", .object [])])]
    ∃ file o', save ⟨#[members]⟩ 0 (.bytes [0xFF]) false = (.ok file, o') ∧
      tryLoad file = .ok (withVersion (overlay default.members members)) ∧
      o'.get 0 = members := by
  intro members
  have hplain : (Json.object members).IsPlain := by
    refine .object (by decide) ?_
    simp only [members, List.forall_mem_cons, List.not_mem_nil, false_implies, implies_true,
      and_true]
    refine ⟨.str _, .int _, .object (by decide) ?_⟩
    simp only [List.forall_mem_cons, List.not_mem_nil, false_implies, implies_true, and_true]
    refine ⟨.list ?_, .object (by decide) (by simp)⟩
    simp only [List.forall_mem_cons, List.not_mem_nil, false_implies, implies_true, and_true]
    exact ⟨.null, .list (by simp), .bool true⟩
  have herror : Json.writeError? maxWritten (.object (withVersion members)) = none := by
    decide +kernel
  obtain ⟨file, o', hsave⟩ := exists_save ⟨#[members]⟩ 0
    (show StoredFile.bytes [0xFF] ≠ .directory by simp) herror
  obtain ⟨hshallow, -, hsame⟩ := tryLoad_of_save (o := ⟨#[members]⟩) (k := 0) hplain hsave
  exact ⟨file, o', hsave, hshallow (by decide +kernel), hsame 0 (by decide)⟩

/-- An empty list inside so many others. -/
def nestedList : Nat → Json
  | 0 => .list []
  | n + 1 => .list [nestedList n]

theorem nesting_nestedList (n : Nat) : (nestedList n).nesting = n + 1 := by
  induction n with
  | zero => rfl
  | succ n ih => simp [nestedList, Json.nesting, Json.itemsNesting, ih]

theorem isPlain_nestedList (n : Nat) : (nestedList n).IsPlain := by
  induction n with
  | zero => exact .list (by simp)
  | succ n ih => exact .list (by simpa using ih)

theorem hasLongInteger_nestedList (n : Nat) : (nestedList n).hasLongInteger = false := by
  induction n with
  | zero => rfl
  | succ n ih => simp [nestedList, Json.hasLongInteger, Json.anyLongInteger, ih]

/-- The object with such a list as its only member. -/
def nestedMembers (n : Nat) : List (String × Json) := [("manifest_name", nestedList n)]

theorem isPlain_nestedMembers (n : Nat) : (Json.object (nestedMembers n)).IsPlain :=
  .object (by simp [nestedMembers]) fun _ hm => List.mem_singleton.mp hm ▸ isPlain_nestedList n

theorem withVersion_nestedMembers (n : Nat) : withVersion (nestedMembers n) =
    [("manifest_name", nestedList n), ("version", .str currentVersion)] := rfl

/-- An object can be saved with more lists inside one another than can be loaded. -/
theorem tryLoad_nestedMembers {n : Nat} (hsaved : n + 2 ≤ maxWritten)
    (hdeep : maxNesting < n + 2) :
    ∃ file o', save ⟨#[nestedMembers n]⟩ 0 .missing false = (.ok file, o') ∧
      ∃ e, tryLoad file = .error e := by
  have hplain := isPlain_withVersion (isPlain_nestedMembers n)
  have hlong : (Json.object (withVersion (nestedMembers n))).hasLongInteger = false := by
    simp [withVersion_nestedMembers, Json.hasLongInteger, Json.anyLongMember,
      hasLongInteger_nestedList]
  have hnesting : (Json.object (withVersion (nestedMembers n))).nesting = n + 2 := by
    simp [withVersion_nestedMembers, Json.nesting, Json.membersNesting, nesting_nestedList]
  rw [← hnesting] at hsaved hdeep
  obtain ⟨file, o', hsave⟩ := exists_save ⟨#[nestedMembers n]⟩ 0
    (show StoredFile.missing ≠ .directory by simp) (hplain.writeError?_eq_none hlong hsaved)
  exact ⟨file, o', hsave, tryLoad_of_writeOver_of_deep hplain (writeOver_of_save hsave) hdeep⟩

/-- With 993 lists inside one another the settings are saved and cannot be loaded. -/
theorem not_tryLoad_of_save :
    (Json.object (nestedMembers 992)).IsPlain ∧
      ∃ file o', save ⟨#[nestedMembers 992]⟩ 0 .missing false = (.ok file, o') ∧
        tryLoad file ≠ .ok (withVersion (overlay default.members (nestedMembers 992))) := by
  obtain ⟨file, o', hsave, e, he⟩ :=
    tryLoad_nestedMembers (show 992 + 2 ≤ maxWritten by decide) (show maxNesting < 992 + 2 by decide)
  refine ⟨isPlain_nestedMembers 992, file, o', hsave, fun hloaded => ?_⟩
  rw [he] at hloaded
  cases hloaded

end Objects

end TestAtlas
