import TestAtlas.Json.Reader
import TestAtlas.Proofs.Json.Token

/-!
# Reading back what was written

A value without floating-point numbers, in whose objects no name stands twice, is written in the
indented form as a text from which the reader makes the same value.  First the text is cut into the
tokens of the value, and then the reader passes over these tokens, with no more containers open at
once than lie inside one another in the value.  The main statements are `parse?_write` and
`tooDeep?_write`.
-/

namespace TestAtlas.Json

/-! ## The values in question -/

/-- A value without floating-point numbers, in whose objects each name stands once. -/
inductive IsPlain : Json → Prop
  | null : IsPlain .null
  | bool (b : Bool) : IsPlain (.bool b)
  | int (n : Int) : IsPlain (.int n)
  | str (s : String) : IsPlain (.str s)
  | list {items : List Json} (hitems : ∀ v ∈ items, IsPlain v) : IsPlain (.list items)
  | object {members : List (String × Json)} (hnames : (members.map Prod.fst).Nodup)
      (hmembers : ∀ m ∈ members, IsPlain m.2) : IsPlain (.object members)

mutual

/-- How many containers lie inside one another. -/
def nesting : Json → Nat
  | .list items => itemsNesting items + 1
  | .object members => membersNesting members + 1
  | _ => 0

/-- How many containers lie inside one another among some items. -/
def itemsNesting : List Json → Nat
  | [] => 0
  | item :: items => max (nesting item) (itemsNesting items)

/-- How many containers lie inside one another among some members. -/
def membersNesting : List (String × Json) → Nat
  | [] => 0
  | (_, value) :: members => max (nesting value) (membersNesting members)

end

mutual

/-- The tokens of a value. -/
def tokens : Json → List Token
  | .list [] => [.listOpen, .listClose]
  | .list (item :: items) => .listOpen :: (tokens item ++ (itemTokens items ++ [.listClose]))
  | .object [] => [.objectOpen, .objectClose]
  | .object ((name, value) :: members) =>
    .objectOpen :: .text name :: .colon ::
      (tokens value ++ (memberTokens members ++ [.objectClose]))
  | .str s => [.text s]
  | value => [.atom value]

/-- The tokens of the items after the first. -/
def itemTokens : List Json → List Token
  | [] => []
  | item :: items => .comma :: (tokens item ++ itemTokens items)

/-- The tokens of the members after the first. -/
def memberTokens : List (String × Json) → List Token
  | [] => []
  | (name, value) :: members =>
    .comma :: .text name :: .colon :: (tokens value ++ memberTokens members)

end

/-! ## The tokens of the text -/

/-- The characters before a part. -/
def breakChars (depth : Nat) : List Char := '\n' :: List.replicate (4 * depth) ' '

theorem all_isSpace_break {depth : Nat} : (breakChars depth).all isSpace = true := by
  rw [breakChars, List.all_cons, List.all_replicate]
  simp [isSpace]

section Text

variable {rest : List Char}

theorem toList_list (depth : Nat) (item : Json) (items : List Json) :
    (writeAt .indented depth (.list (item :: items))).toList =
      '[' :: (breakChars (depth + 1) ++ ((writeAt .indented (depth + 1) item).toList ++
        ((writeItems .indented (depth + 1) items).toList ++ (breakChars depth ++ [']'])))) := by
  simp [writeAt, Style.indented, breakChars]

theorem toList_object (depth : Nat) (name : String) (value : Json)
    (members : List (String × Json)) :
    (writeAt .indented depth (.object ((name, value) :: members))).toList =
      '\x7b' :: (breakChars (depth + 1) ++ ((writeString name).toList ++ (':' :: (' ' ::
        ((writeAt .indented (depth + 1) value).toList ++
          ((writeMembers .indented (depth + 1) members).toList ++
            (breakChars depth ++ ['\x7d']))))))) := by
  simp [writeAt, Style.indented, breakChars]

theorem toList_items (depth : Nat) (item : Json) (items : List Json) :
    (writeItems .indented depth (item :: items)).toList =
      ',' :: (breakChars depth ++ ((writeAt .indented depth item).toList ++
        (writeItems .indented depth items).toList)) := by
  simp [writeItems, Style.indented, breakChars]

theorem toList_members (depth : Nat) (name : String) (value : Json)
    (members : List (String × Json)) :
    (writeMembers .indented depth ((name, value) :: members)).toList =
      ',' :: (breakChars depth ++ ((writeString name).toList ++ (':' :: (' ' ::
        ((writeAt .indented depth value).toList ++
          (writeMembers .indented depth members).toList))))) := by
  simp [writeMembers, Style.indented, breakChars]

theorem endsNumber_cons {c : Char} (hc : c.isDigit = false ∧ c ≠ '.' ∧ c ≠ 'e' ∧ c ≠ 'E')
    (cs : List Char) : EndsNumber (c :: cs) := by
  intro d hd
  rw [List.head?_cons, Option.mem_some_iff] at hd
  exact hd ▸ hc

theorem endsNumber_break (depth : Nat) (rest : List Char) :
    EndsNumber (breakChars depth ++ rest) :=
  endsNumber_cons (by decide) _

theorem endsNumber_items (depth : Nat) (items : List Json) (hrest : EndsNumber rest) :
    EndsNumber ((writeItems .indented depth items).toList ++ rest) := by
  cases items with
  | nil => exact hrest
  | cons item items =>
      rw [toList_items]
      exact endsNumber_cons (by decide) _

theorem endsNumber_members (depth : Nat) (members : List (String × Json))
    (hrest : EndsNumber rest) :
    EndsNumber ((writeMembers .indented depth members).toList ++ rest) := by
  cases members with
  | nil => exact hrest
  | cons m members =>
      rw [toList_members]
      exact endsNumber_cons (by decide) _

/-- The text of a value is cut into its tokens, whatever follows that is no part of a number. -/
def IsCut (v : Json) : Prop :=
  v.hasLongInteger = false → ∀ depth rest, EndsNumber rest →
    StartsWith ((writeAt .indented depth v).toList ++ rest) v.tokens rest

/-- A name, a colon and what follows. -/
theorem startsWith_member (name : String) {cs : List Char} {ts : List Token}
    (h : StartsWith cs ts rest) :
    StartsWith ((writeString name).toList ++ (':' :: ' ' :: cs)) (.text name :: .colon :: ts)
      rest := by
  have hblank : StartsWith ([' '] ++ cs) ts rest := .blank (by decide) h
  exact (startsWith_string name _).append (.mark (by decide) (fun _ => rfl) hblank)

theorem startsWith_items (depth : Nat) {items : List Json} (hitems : ∀ v ∈ items, v.IsCut)
    (hlong : anyLongInteger items = false) (hrest : EndsNumber rest) :
    StartsWith ((writeItems .indented depth items).toList ++ rest) (itemTokens items) rest := by
  induction items with
  | nil => exact .nil rest
  | cons item items ih =>
      rw [anyLongInteger, Bool.or_eq_false_iff] at hlong
      have hitem := hitems item (by simp) hlong.1 depth _ (endsNumber_items depth items hrest)
      have hmore := ih (fun v hv => hitems v (by simp [hv])) hlong.2
      rw [toList_items, itemTokens]
      simp only [List.cons_append, List.append_assoc]
      exact .mark (by decide) (fun _ => rfl) (.blank all_isSpace_break (hitem.append hmore))

theorem startsWith_members (depth : Nat) {members : List (String × Json)}
    (hmembers : ∀ m ∈ members, m.2.IsCut) (hlong : anyLongMember members = false)
    (hrest : EndsNumber rest) :
    StartsWith ((writeMembers .indented depth members).toList ++ rest) (memberTokens members)
      rest := by
  induction members with
  | nil => exact .nil rest
  | cons m members ih =>
      obtain ⟨name, value⟩ := m
      rw [anyLongMember, Bool.or_eq_false_iff] at hlong
      have hvalue := hmembers _ List.mem_cons_self hlong.1 depth _
        (endsNumber_members depth members hrest)
      have hmore := ih (fun m hm => hmembers m (by simp [hm])) hlong.2
      rw [toList_members, memberTokens]
      simp only [List.cons_append, List.append_assoc]
      exact .mark (by decide) (fun _ => rfl) (.blank all_isSpace_break
        (startsWith_member name (hvalue.append hmore)))

/-- A closing bracket on a line of its own. -/
theorem startsWith_close (depth : Nat) {c : Char} {t : Token} (hc : isSpace c = false)
    (h : ∀ cs, readToken (c :: cs) = some (t, cs)) (rest : List Char) :
    StartsWith (breakChars depth ++ (c :: rest)) [t] rest :=
  .blank all_isSpace_break (.mark hc h (.nil rest))

theorem isCut_list {items : List Json} (h : ∀ v ∈ items, v.IsCut) : (Json.list items).IsCut := by
  intro hlong depth rest _
  rw [hasLongInteger] at hlong
  cases items with
  | nil =>
      rw [writeAt, show "[]".toList = ['[', ']'] by decide, tokens]
      exact .mark (by decide) (fun _ => rfl) (.mark (by decide) (fun _ => rfl) (.nil rest))
  | cons item items =>
      rw [anyLongInteger, Bool.or_eq_false_iff] at hlong
      have hends := endsNumber_break depth (']' :: rest)
      have hitem := h item (by simp) hlong.1 (depth + 1) _ (endsNumber_items (depth + 1) items hends)
      have hmore := startsWith_items (depth + 1) (fun v hv => h v (by simp [hv])) hlong.2 hends
      have hclose : StartsWith (breakChars depth ++ (']' :: rest)) [.listClose] rest :=
        startsWith_close depth (by decide) (fun _ => rfl) rest
      rw [toList_list, tokens]
      simp only [List.cons_append, List.append_assoc, List.nil_append]
      exact .mark (by decide) (fun _ => rfl) (.blank all_isSpace_break
        (hitem.append (hmore.append hclose)))

theorem isCut_object {members : List (String × Json)} (h : ∀ m ∈ members, m.2.IsCut) :
    (Json.object members).IsCut := by
  intro hlong depth rest _
  rw [hasLongInteger] at hlong
  cases members with
  | nil =>
      rw [writeAt, show "\x7b\x7d".toList = ['\x7b', '\x7d'] by decide, tokens]
      exact .mark (by decide) (fun _ => rfl) (.mark (by decide) (fun _ => rfl) (.nil rest))
  | cons m members =>
      obtain ⟨name, value⟩ := m
      rw [anyLongMember, Bool.or_eq_false_iff] at hlong
      have hends := endsNumber_break depth ('\x7d' :: rest)
      have hvalue := h _ List.mem_cons_self hlong.1 (depth + 1) _
        (endsNumber_members (depth + 1) members hends)
      have hmore := startsWith_members (depth + 1) (fun m hm => h m (by simp [hm])) hlong.2 hends
      have hclose : StartsWith (breakChars depth ++ ('\x7d' :: rest)) [.objectClose] rest :=
        startsWith_close depth (by decide) (fun _ => rfl) rest
      rw [toList_object, tokens]
      simp only [List.cons_append, List.append_assoc, List.nil_append]
      exact .mark (by decide) (fun _ => rfl) (.blank all_isSpace_break
        (startsWith_member name (hvalue.append (hmore.append hclose))))

theorem IsPlain.isCut {v : Json} (h : v.IsPlain) : v.IsCut := by
  induction h with
  | null =>
      intro _ depth rest _
      exact startsWith_null rest
  | bool b =>
      intro _ depth rest _
      cases b with
      | true => exact startsWith_true rest
      | false => exact startsWith_false rest
  | int n =>
      intro hlong depth rest hrest
      rw [hasLongInteger, decide_eq_false_iff_not, Nat.not_lt] at hlong
      exact startsWith_int n hrest hlong
  | str s =>
      intro _ depth rest _
      exact startsWith_string s rest
  | list _ ih => exact isCut_list ih
  | object _ _ ih => exact isCut_object ih

end Text

/-! ## Reading the tokens -/

/-- The reader passes over the tokens, and at no time are more containers open than allowed. -/
inductive Passes (limit : Nat) : Reader → List Token → Reader → Prop
  | nil (r : Reader) : Passes limit r [] r
  | cons {r r' r'' : Reader} {t : Token} {ts : List Token} (hstep : r.step t = some r')
      (hexcess : r'.excess? limit t = none) (hrest : Passes limit r' ts r'') :
      Passes limit r (t :: ts) r''

section Reading

variable {limit : Nat}

theorem Passes.append {r r' r'' : Reader} {ts us : List Token} (h : Passes limit r ts r')
    (h' : Passes limit r' us r'') : Passes limit r (ts ++ us) r'' := by
  induction h with
  | nil => exact h'
  | cons hstep hexcess _ ih => exact .cons hstep hexcess (ih h')

/-- A token that opens nothing. -/
theorem Passes.single {r r' : Reader} {t : Token} (hstep : r.step t = some r')
    (hexcess : r'.excess? limit t = none) : Passes limit r [t] r' :=
  .cons hstep hexcess (.nil r')

theorem Passes.foldlM_eq {r r' : Reader} {ts : List Token} (h : Passes limit r ts r') :
    ts.foldlM Reader.step r = some r' := by
  induction h with
  | nil => rfl
  | cons hstep _ _ ih =>
      rw [List.foldlM_cons, hstep]
      exact ih

theorem Passes.tooDeep?_eq {r r' : Reader} {ts : List Token} (h : Passes limit r ts r') :
    r.tooDeep? limit ts = none := by
  induction h with
  | nil => rfl
  | cons hstep hexcess _ ih =>
      rw [Reader.tooDeep?]
      simp only [hstep, hexcess, ih]

/-- The reader passes over the tokens of the value and hands it to the innermost container, as long
as the containers that are open and those of the value are no more than allowed. -/
def IsRead (v : Json) : Prop :=
  ∀ limit frames r, v.nesting + frames.length ≤ limit → Reader.deliver v frames = some r →
    Passes limit (.reading .value frames) v.tokens r

/-- Where a list may also be closed, a value is read as elsewhere. -/
theorem passes_valueOrClose_iff {v : Json} {frames : List Frame} {r : Reader} :
    Passes limit (.reading .valueOrClose frames) v.tokens r ↔
      Passes limit (.reading .value frames) v.tokens r := by
  have hfirst : ∃ t ts, v.tokens = t :: ts ∧ ∀ frames',
      Reader.step (.reading .valueOrClose frames') t = Reader.step (.reading .value frames') t := by
    cases v with
    | list items => cases items <;> exact ⟨_, _, rfl, fun _ => rfl⟩
    | object members => cases members <;> exact ⟨_, _, rfl, fun _ => rfl⟩
    | _ => exact ⟨_, _, rfl, fun _ => rfl⟩
  obtain ⟨t, ts, htokens, hstep⟩ := hfirst
  rw [htokens]
  constructor
  · rintro (_ | ⟨hfirst, hexcess, hrest⟩)
    exact .cons (hstep _ ▸ hfirst) hexcess hrest
  · rintro (_ | ⟨hfirst, hexcess, hrest⟩)
    exact .cons ((hstep _).symm ▸ hfirst) hexcess hrest

/-- The items after the first go into their list one by one. -/
theorem passes_items {items : List Json} (hitems : ∀ v ∈ items, v.IsRead) {frames : List Frame}
    (hlimit : itemsNesting items + (frames.length + 1) ≤ limit) (before : List Json) :
    Passes limit (.reading .separatorOrClose (.list before :: frames)) (itemTokens items)
      (.reading .separatorOrClose (.list (items.reverse ++ before) :: frames)) := by
  induction items generalizing before with
  | nil => exact .nil _
  | cons item items ih =>
      rw [itemsNesting] at hlimit
      have hitem := hitems item (by simp) limit (.list before :: frames) _
        (by rw [List.length_cons]; omega) rfl
      have hmore := ih (fun v hv => hitems v (by simp [hv])) (by omega) (item :: before)
      rw [itemTokens, List.reverse_cons, List.append_assoc, List.singleton_append]
      exact .cons rfl rfl (hitem.append hmore)

/-- A member with a new name goes to the end. -/
theorem insertMember_of_not_mem {name : String} {value : Json} {members : List (String × Json)}
    (h : name ∉ members.map Prod.fst) :
    insertMember name value members = members ++ [(name, value)] := by
  induction members with
  | nil => rfl
  | cons m members ih =>
      rw [List.map_cons, List.mem_cons, not_or] at h
      rw [insertMember, if_neg (Ne.symm h.1), ih h.2, List.cons_append]

/-- The members after the first go into their object one by one. -/
theorem passes_members {members : List (String × Json)} (hmembers : ∀ m ∈ members, m.2.IsRead)
    {frames : List Frame} (hlimit : membersNesting members + (frames.length + 1) ≤ limit)
    (before : List (String × Json)) (hnames : ((before ++ members).map Prod.fst).Nodup) :
    Passes limit (.reading .separatorOrClose (.object before :: frames)) (memberTokens members)
      (.reading .separatorOrClose (.object (before ++ members) :: frames)) := by
  induction members generalizing before with
  | nil =>
      rw [List.append_nil]
      exact .nil _
  | cons m members ih =>
      obtain ⟨name, value⟩ := m
      rw [membersNesting] at hlimit
      have hnew : name ∉ before.map Prod.fst := by
        rw [List.map_append, List.nodup_append] at hnames
        exact fun hmem => hnames.2.2 name hmem name (by simp) rfl
      have hvalue := hmembers (name, value) List.mem_cons_self limit
        (.entry before name :: frames) _ (by simp only [List.length_cons]; omega) rfl
      rw [insertMember_of_not_mem hnew] at hvalue
      have hmore := ih (fun m hm => hmembers m (by simp [hm])) (by omega) (before ++ [(name, value)])
        (by rwa [List.append_assoc, List.singleton_append])
      rw [List.append_assoc, List.singleton_append] at hmore
      exact .cons rfl rfl (.cons rfl rfl (.cons rfl rfl (hvalue.append hmore)))

theorem excess?_eq_none {expected : Expected} {frames : List Frame} (h : frames.length ≤ limit)
    (t : Token) : (Reader.reading expected frames).excess? limit t = none := by
  cases t <;> simp [Reader.excess?, Reader.depth, Nat.not_lt.mpr h]

theorem isRead_list {items : List Json} (h : ∀ v ∈ items, v.IsRead) :
    (Json.list items).IsRead := by
  intro limit frames r hlimit hdeliver
  rw [nesting] at hlimit
  cases items with
  | nil =>
      exact .cons rfl (excess?_eq_none (by rw [List.length_cons]; omega) _)
        (.single hdeliver rfl)
  | cons item items =>
      rw [itemsNesting] at hlimit
      have hitem := h item (by simp) limit (.list [] :: frames) _
        (by rw [List.length_cons]; omega) rfl
      have hmore := passes_items (fun v hv => h v (by simp [hv]))
        (by omega : itemsNesting items + (frames.length + 1) ≤ limit) [item]
      have hclose : Reader.step (.reading .separatorOrClose
          (.list (items.reverse ++ [item]) :: frames)) .listClose = some r := by
        rw [← hdeliver, Reader.step, Reader.close]
        · simp
        · simp
      exact .cons rfl (excess?_eq_none (by rw [List.length_cons]; omega) _)
        ((passes_valueOrClose_iff.mpr hitem).append (hmore.append (.single hclose rfl)))

theorem isRead_object {members : List (String × Json)} (hnames : (members.map Prod.fst).Nodup)
    (h : ∀ m ∈ members, m.2.IsRead) : (Json.object members).IsRead := by
  intro limit frames r hlimit hdeliver
  rw [nesting] at hlimit
  cases members with
  | nil =>
      exact .cons rfl (excess?_eq_none (by rw [List.length_cons]; omega) _)
        (.single hdeliver rfl)
  | cons m members =>
      obtain ⟨name, value⟩ := m
      rw [membersNesting] at hlimit
      have hvalue := h (name, value) List.mem_cons_self limit (.entry [] name :: frames) _
        (by simp only [List.length_cons]; omega) rfl
      have hmore := passes_members (fun m hm => h m (by simp [hm]))
        (by omega : membersNesting members + (frames.length + 1) ≤ limit) [(name, value)] hnames
      exact .cons rfl (excess?_eq_none (by rw [List.length_cons]; omega) _)
        (.cons rfl rfl (.cons rfl rfl (hvalue.append (hmore.append (.single hdeliver rfl)))))

theorem IsPlain.isRead {v : Json} (h : v.IsPlain) : v.IsRead := by
  induction h with
  | null | bool | int | str =>
      intro limit frames r _ hdeliver
      exact .single hdeliver rfl
  | list _ ih => exact isRead_list ih
  | object hnames _ ih => exact isRead_object hnames ih

end Reading

/-! ## Round trip -/

variable {v : Json}

theorem IsPlain.startsWith_write (h : v.IsPlain) (hlong : v.hasLongInteger = false) :
    StartsWith (write .indented v).toList v.tokens [] := by
  have hcut := h.isCut hlong 0 [] (by intro c hc; simp at hc)
  rwa [List.append_nil] at hcut

theorem IsPlain.passes (h : v.IsPlain) {limit : Nat} (hlimit : v.nesting ≤ limit) :
    Passes limit Reader.start v.tokens (.finished v) :=
  h.isRead limit [] _ (by simpa using hlimit) rfl

/-- What was written is read back as the same value. -/
theorem parse?_write (h : v.IsPlain) (hlong : v.hasLongInteger = false) :
    parse? (write .indented v).toList = some v := by
  rw [parse?, (h.startsWith_write hlong).tokens?_eq]
  simp only [ofTokens?, (h.passes (Nat.le_refl _)).foldlM_eq]

/-- No container lies deeper in the text than in the value. -/
theorem tooDeep?_write (h : v.IsPlain) (hlong : v.hasLongInteger = false) {limit : Nat}
    (hlimit : v.nesting ≤ limit) : tooDeep? limit (write .indented v).toList = none := by
  rw [tooDeep?, (h.startsWith_write hlong).leadingTokens_eq]
  exact (h.passes hlimit).tooDeep?_eq

end TestAtlas.Json
