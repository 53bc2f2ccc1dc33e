import TestAtlas.Proofs.Json.RoundTrip

/-!
# How deep a value can be written and read

A reader that allows fewer open containers than lie inside one another in a value gives up at the
text of the value.  So whether a text that was written can be read is told by the value alone
(`tooDeep?_write_eq_none_iff`).  And if there is room for its containers, a value is written to its
end (`IsPlain.writeError?_eq_none`).
-/

namespace TestAtlas.Json

/-! ## Passing over tokens -/

section Reading

variable {limit big : Nat} {r r' r'' : Reader}

/-- A reader that gives up nowhere passes over the tokens, if a more lenient one does. -/
theorem Passes.of_tooDeep?_eq_none {ts : List Token} (h : Passes big r ts r')
    (hshallow : r.tooDeep? limit ts = none) : Passes limit r ts r' := by
  induction h with
  | nil r => exact .nil r
  | @cons r next r' t ts hstep _ _ ih =>
      rw [Reader.tooDeep?] at hshallow
      simp only [hstep] at hshallow
      cases hexcess : next.excess? limit t with
      | some e => simp [hexcess] at hshallow
      | none => exact .cons hstep hexcess (ih (by simpa [hexcess] using hshallow))

/-- Where a first part of the tokens leads does not depend on what is allowed. -/
theorem Passes.split {ts us : List Token} (hfirst : Passes big r ts r')
    (h : Passes limit r (ts ++ us) r'') : Passes limit r ts r' ∧ Passes limit r' us r'' := by
  induction hfirst with
  | nil r => exact ⟨.nil r, h⟩
  | cons hstep _ _ ih =>
      cases h with
      | cons hstep' hexcess hrest =>
          obtain rfl := Option.some.inj (hstep.symm.trans hstep')
          obtain ⟨hts, hus⟩ := ih hrest
          exact ⟨.cons hstep hexcess hts, hus⟩

theorem Passes.excess_eq_none {t : Token} {ts : List Token} {next : Reader}
    (h : Passes limit r (t :: ts) r') (hstep : r.step t = some next) :
    next.excess? limit t = none ∧ Passes limit next ts r' := by
  cases h with
  | cons hstep' hexcess hrest =>
      obtain rfl := Option.some.inj (hstep.symm.trans hstep')
      exact ⟨hexcess, hrest⟩

end Reading

/-! ## The depth of a value -/

/-- A reader passes over the tokens of the value only if it allows its containers inside those that
are open. -/
def IsAllowed (v : Json) : Prop :=
  ∀ limit frames r, Passes limit (.reading .value frames) v.tokens r → 0 < v.nesting →
    v.nesting + frames.length ≤ limit

section Depth

variable {limit : Nat} {frames : List Frame} {r : Reader}

theorem length_le_of_excess {expected : Expected} {t : Token} (ht : t = .listOpen ∨ t = .objectOpen)
    (h : (Reader.reading expected frames).excess? limit t = none) : frames.length ≤ limit := by
  refine Nat.le_of_not_lt fun hlt => ?_
  rcases ht with rfl | rfl <;> simp [Reader.excess?, Reader.depth, hlt] at h

theorem IsRead.passes_deliver {v : Json} (h : v.IsRead) {frames : List Frame} {r : Reader}
    (hdeliver : Reader.deliver v frames = some r) :
    Passes (v.nesting + frames.length) (.reading .value frames) v.tokens r :=
  h _ frames r (Nat.le_refl _) hdeliver

theorem allowed_items {items : List Json} (hread : ∀ v ∈ items, v.IsRead)
    (hallowed : ∀ v ∈ items, v.IsAllowed) {before : List Json} {ts : List Token}
    (h : Passes limit (.reading .separatorOrClose (.list before :: frames)) (itemTokens items ++ ts) r)
    (hpos : 0 < itemsNesting items) : itemsNesting items + (frames.length + 1) ≤ limit := by
  induction items generalizing before with
  | nil => exact absurd hpos (by simp [itemsNesting])
  | cons item items ih =>
      rw [itemTokens, List.cons_append, List.append_assoc] at h
      obtain ⟨-, h⟩ := h.excess_eq_none rfl
      obtain ⟨hitem, hmore⟩ := ((hread item List.mem_cons_self).passes_deliver rfl).split h
      have hfirst := hallowed item List.mem_cons_self limit _ _ hitem
      have hrest := ih (fun v hv => hread v (by simp [hv])) (fun v hv => hallowed v (by simp [hv]))
        hmore
      rw [itemsNesting] at hpos ⊢
      rw [List.length_cons] at hfirst
      omega

theorem allowed_members {members : List (String × Json)} (hread : ∀ m ∈ members, m.2.IsRead)
    (hallowed : ∀ m ∈ members, m.2.IsAllowed) {before : List (String × Json)} {ts : List Token}
    (h : Passes limit (.reading .separatorOrClose (.object before :: frames))
      (memberTokens members ++ ts) r)
    (hpos : 0 < membersNesting members) : membersNesting members + (frames.length + 1) ≤ limit := by
  induction members generalizing before with
  | nil => exact absurd hpos (by simp [membersNesting])
  | cons m members ih =>
      obtain ⟨name, value⟩ := m
      rw [memberTokens, List.cons_append, List.cons_append, List.cons_append,
        List.append_assoc] at h
      obtain ⟨-, h⟩ := h.excess_eq_none rfl
      obtain ⟨-, h⟩ := h.excess_eq_none rfl
      obtain ⟨-, h⟩ := h.excess_eq_none rfl
      obtain ⟨hvalue, hmore⟩ := ((hread _ List.mem_cons_self).passes_deliver rfl).split h
      have hfirst := hallowed _ List.mem_cons_self limit _ _ hvalue
      have hrest := ih (fun m hm => hread m (by simp [hm])) (fun m hm => hallowed m (by simp [hm]))
        hmore
      rw [membersNesting] at hpos ⊢
      rw [List.length_cons] at hfirst
      simp only at hfirst
      omega

theorem isAllowed_list {items : List Json} (hread : ∀ v ∈ items, v.IsRead)
    (hallowed : ∀ v ∈ items, v.IsAllowed) : (Json.list items).IsAllowed := by
  intro limit frames r h _
  rw [nesting]
  cases items with
  | nil =>
      have hopen := length_le_of_excess (.inl rfl) (h.excess_eq_none rfl).1
      rw [List.length_cons] at hopen
      rw [itemsNesting]
      omega
  | cons item items =>
      obtain ⟨hopen, h⟩ := h.excess_eq_none rfl
      have hopen := length_le_of_excess (.inl rfl) hopen
      obtain ⟨hitem, hmore⟩ := (passes_valueOrClose_iff.mpr
        ((hread item List.mem_cons_self).passes_deliver rfl)).split h
      have hfirst := hallowed item List.mem_cons_self limit _ _ (passes_valueOrClose_iff.mp hitem)
      have hrest := allowed_items (fun v hv => hread v (by simp [hv]))
        (fun v hv => hallowed v (by simp [hv])) hmore
      rw [itemsNesting]
      rw [List.length_cons] at hfirst hopen
      omega

theorem isAllowed_object {members : List (String × Json)} (hread : ∀ m ∈ members, m.2.IsRead)
    (hallowed : ∀ m ∈ members, m.2.IsAllowed) : (Json.object members).IsAllowed := by
  intro limit frames r h _
  rw [nesting]
  cases members with
  | nil =>
      have hopen := length_le_of_excess (.inr rfl) (h.excess_eq_none rfl).1
      rw [List.length_cons] at hopen
      rw [membersNesting]
      omega
  | cons m members =>
      obtain ⟨name, value⟩ := m
      obtain ⟨hopen, h⟩ := h.excess_eq_none rfl
      have hopen := length_le_of_excess (.inr rfl) hopen
      obtain ⟨-, h⟩ := h.excess_eq_none rfl
      obtain ⟨-, h⟩ := h.excess_eq_none rfl
      obtain ⟨hvalue, hmore⟩ := ((hread _ List.mem_cons_self).passes_deliver rfl).split h
      have hfirst := hallowed _ List.mem_cons_self limit _ _ hvalue
      have hrest := allowed_members (fun m hm => hread m (by simp [hm]))
        (fun m hm => hallowed m (by simp [hm])) hmore
      rw [membersNesting]
      rw [List.length_cons] at hfirst hopen
      simp only at hfirst
      omega

theorem IsPlain.isAllowed {v : Json} (h : v.IsPlain) : v.IsAllowed := by
  induction h with
  | null | bool | int | str =>
      intro limit frames r _ hpos
      exact absurd hpos (by simp [nesting])
  | list hitems ih => exact isAllowed_list (fun v hv => (hitems v hv).isRead) ih
  | object _ hmembers ih => exact isAllowed_object (fun m hm => (hmembers m hm).isRead) ih

end Depth

/-- The text of a value can be read exactly if its containers are allowed. -/
theorem tooDeep?_write_eq_none_iff {v : Json} (h : v.IsPlain) (hlong : v.hasLongInteger = false)
    {limit : Nat} : tooDeep? limit (write .indented v).toList = none ↔ v.nesting ≤ limit := by
  constructor
  · intro hshallow
    rw [tooDeep?, (h.startsWith_write hlong).leadingTokens_eq] at hshallow
    have hpasses := (h.passes (Nat.le_refl _)).of_tooDeep?_eq_none hshallow
    cases hn : v.nesting with
    | zero => exact Nat.zero_le limit
    | succ n => simpa [hn] using h.isAllowed limit [] _ hpasses (by omega)
  · exact tooDeep?_write h hlong

/-! ## What can be written -/

theorem itemsError?_eq_none_iff {room : Nat} {items : List Json} :
    itemsError? room items = none ↔ ∀ v ∈ items, writeError? room v = none := by
  induction items with
  | nil => simp [itemsError?]
  | cons item items ih => rw [itemsError?, Option.or_eq_none_iff, ih, List.forall_mem_cons]

theorem membersError?_eq_none_iff {room : Nat} {members : List (String × Json)} :
    membersError? room members = none ↔ ∀ m ∈ members, writeError? room m.2 = none := by
  induction members with
  | nil => simp [membersError?]
  | cons m members ih => rw [membersError?, Option.or_eq_none_iff, ih, List.forall_mem_cons]

theorem anyLongInteger_eq_false_iff {items : List Json} :
    anyLongInteger items = false ↔ ∀ v ∈ items, v.hasLongInteger = false := by
  induction items with
  | nil => simp [anyLongInteger]
  | cons item items ih => rw [anyLongInteger, Bool.or_eq_false_iff, ih, List.forall_mem_cons]

theorem anyLongMember_eq_false_iff {members : List (String × Json)} :
    anyLongMember members = false ↔ ∀ m ∈ members, m.2.hasLongInteger = false := by
  induction members with
  | nil => simp [anyLongMember]
  | cons m members ih => rw [anyLongMember, Bool.or_eq_false_iff, ih, List.forall_mem_cons]

theorem itemsNesting_le_iff {n : Nat} {items : List Json} :
    itemsNesting items ≤ n ↔ ∀ v ∈ items, v.nesting ≤ n := by
  induction items with
  | nil => simp [itemsNesting]
  | cons item items ih => rw [itemsNesting, Nat.max_le, ih, List.forall_mem_cons]

theorem membersNesting_le_iff {n : Nat} {members : List (String × Json)} :
    membersNesting members ≤ n ↔ ∀ m ∈ members, m.2.nesting ≤ n := by
  induction members with
  | nil => simp [membersNesting]
  | cons m members ih => rw [membersNesting, Nat.max_le, ih, List.forall_mem_cons]

/-- What is written to its end has no integer that is too long. -/
theorem IsPlain.hasLongInteger_eq_false {v : Json} (h : v.IsPlain) {room : Nat}
    (herror : writeError? room v = none) : v.hasLongInteger = false := by
  induction h generalizing room with
  | null | bool | str => rfl
  | int n => simpa [writeError?] using herror
  | list _ ih =>
      rw [writeError?] at herror
      split at herror
      · exact absurd herror (by simp)
      · have hitems := itemsError?_eq_none_iff.mp herror
        exact anyLongInteger_eq_false_iff.mpr fun v hv => ih v hv (hitems v hv)
  | object _ _ ih =>
      rw [writeError?] at herror
      split at herror
      · exact absurd herror (by simp)
      · have hmembers := membersError?_eq_none_iff.mp herror
        exact anyLongMember_eq_false_iff.mpr fun m hm => ih m hm (hmembers m hm)

/-- A value is written to its end if no integer is too long and there is room for its containers. -/
theorem IsPlain.writeError?_eq_none {v : Json} (h : v.IsPlain) (hlong : v.hasLongInteger = false)
    {room : Nat} (hroom : v.nesting ≤ room) : writeError? room v = none := by
  induction h generalizing room with
  | null | bool | str => rfl
  | int n => simp [writeError?, hlong]
  | list _ ih =>
      rw [nesting] at hroom
      rw [writeError?, if_neg (by simp; omega)]
      have hitems := itemsNesting_le_iff.mp (Nat.le_sub_one_of_lt hroom)
      have hshort := anyLongInteger_eq_false_iff.mp hlong
      exact itemsError?_eq_none_iff.mpr fun v hv => ih v hv (hshort v hv) (hitems v hv)
  | object _ _ ih =>
      rw [nesting] at hroom
      rw [writeError?, if_neg (by simp; omega)]
      have hmembers := membersNesting_le_iff.mp (Nat.le_sub_one_of_lt hroom)
      have hshort := anyLongMember_eq_false_iff.mp hlong
      exact membersError?_eq_none_iff.mpr fun m hm => ih m hm (hshort m hm) (hmembers m hm)

end TestAtlas.Json
