import WorkflowGraph.Json.Reader
import WorkflowGraph.Json.Writer
import WorkflowGraph.Proofs.Decimal.Layout

/-!
# Written JSON is unambiguous

The first character of a written value tells what kind of value it is, and the value tells where its
text ends: a text at its closing quote, a list and an object at their closing brackets, and a number
where something follows that no number has in it. So a text that starts with a written value starts
with one only (`Json.compact_append_inj`), and two values are never written alike
(`Json.compact_injective`).
-/

set_option autoImplicit false

namespace WorkflowGraph

/-- Induction on a value, with what holds of the items of a list and of the values of an object. -/
@[elab_as_elim]
theorem Value.induction {motive : Value → Prop} (null : motive .null)
    (bool : ∀ b, motive (.bool b)) (int : ∀ n, motive (.int n)) (float : ∀ x, motive (.float x))
    (text : ∀ s, motive (.text s))
    (list : ∀ items, (∀ v ∈ items, motive v) → motive (.list items))
    (object : ∀ fields, (∀ p ∈ fields, motive p.2) → motive (.object fields)) (v : Value) :
    motive v :=
  @Value.rec motive (fun items => ∀ v ∈ items, motive v) (fun fields => ∀ p ∈ fields, motive p.2)
    (fun p => motive p.2) null bool int float text list object (List.forall_mem_nil _)
    (fun _ _ hv hrest => List.forall_mem_cons.2 ⟨hv, hrest⟩) (List.forall_mem_nil _)
    (fun _ _ hp hrest => List.forall_mem_cons.2 ⟨hp, hrest⟩) (fun _ _ hv => hv) v

namespace Json

/-! ## Texts -/

section Text

/-- A character that is written by its number is read back from its last two digits. -/
theorem readUnicode?_hexDigit {n : Nat} (h : n < 32) (rest : Rest) :
    readUnicode? ('0' :: '0' :: hexDigit (n / 16) :: hexDigit (n % 16) :: rest) =
      some (some (Char.ofNat n), rest) := by
  have hdigits : ∀ n < 32, hexValue? (hexDigit (n / 16)) = some (n / 16) ∧
      hexValue? (hexDigit (n % 16)) = some (n % 16) := by decide
  obtain ⟨hhigh, hlow⟩ := hdigits n h
  have hfour : readFour? ('0' :: '0' :: hexDigit (n / 16) :: hexDigit (n % 16) :: rest) =
      some (n, rest) := by
    rw [readFour?, hhigh, hlow]
    refine congrArg some (Prod.ext ?_ rfl)
    change ((0 * 16 + 0) * 16 + n / 16) * 16 + n % 16 = n
    omega
  rw [readUnicode?, hfour]
  simp only [Option.bind_eq_bind, Option.bind_some]
  rw [if_neg (by omega), if_neg (by omega)]

theorem readText?_unicode (fuel : Nat) (done : Option (List Char)) (rest : Rest) :
    readText? (fuel + 1) done ('\\' :: 'u' :: rest) =
      match readUnicode? rest with
      | none => none
      | some (d, rest) => readText? fuel (prepend d done) rest := rfl

/-- **A written character is read back.** -/
theorem readText?_escape (fuel : Nat) (done : List Char) (c : Char) (rest : Rest) :
    readText? (fuel + 1) (some done) ((escape c).toList ++ rest) =
      readText? fuel (some (c :: done)) rest := by
  unfold escape
  split_ifs with hquote hbackslash hb ht hn hf hr hcontrol
  case pos | pos | pos | pos | pos | pos | pos => subst c; rfl
  · rw [String.toList_append, String.toList_ofList, String.toList_ofList]
    simp only [List.cons_append, List.nil_append]
    rw [readText?_unicode, readUnicode?_hexDigit hcontrol, Char.ofNat_toNat]
    rfl
  · rw [String.toList_singleton, List.singleton_append]
    simp only [readText?, if_neg hquote, if_neg hbackslash, if_neg hcontrol]
    rfl

/-- A quoted text is read back, whatever stands behind it. By induction on the text. -/
theorem readText?_quoted {cs : List Char} {fuel : Nat} (hfuel : cs.length < fuel)
    (done : List Char) (rest : Rest) :
    readText? fuel (some done) (cs.flatMap (fun c => (escape c).toList) ++ '"' :: rest) =
      some (some (String.ofList (done.reverse ++ cs)), rest) := by
  induction cs generalizing done fuel with
  | nil =>
    obtain ⟨k, rfl⟩ := Nat.exists_eq_add_one_of_ne_zero (Nat.ne_zero_of_lt hfuel)
    rw [List.flatMap_nil, List.nil_append, List.append_nil]
    rfl
  | cons c cs ih =>
    obtain ⟨k, rfl⟩ := Nat.exists_eq_add_one_of_ne_zero (Nat.ne_zero_of_lt hfuel)
    rw [List.flatMap_cons, List.append_assoc, readText?_escape, ih (Nat.lt_of_succ_lt_succ hfuel),
      List.reverse_cons, List.append_assoc, List.singleton_append]

theorem toList_quote (s : String) :
    (quote s).toList = '"' :: (s.toList.flatMap (fun c => (escape c).toList) ++ ['"']) := by
  rw [quote, String.toList_append, String.toList_append, String.toList_join, List.flatMap_map]
  rfl

/-- A text that starts with a quoted one starts with one only. -/
theorem quote_append_inj {s t : String} {r r' : List Char}
    (h : (quote s).toList ++ r = (quote t).toList ++ r') : s = t ∧ r = r' := by
  have hread (s : String) (r : List Char) (fuel : Nat) (hfuel : s.toList.length < fuel) :
      readText? fuel (some []) ((quote s).toList ++ r).tail = some (some s, r) := by
    rw [toList_quote, List.cons_append, List.tail_cons, List.append_assoc, List.singleton_append,
      readText?_quoted hfuel, List.reverse_nil, List.nil_append, String.ofList_toList]
  have hs := hread s r (s.toList.length + t.toList.length + 1) (by omega)
  have ht := hread t r' (s.toList.length + t.toList.length + 1) (by omega)
  rw [h, ht] at hs
  obtain ⟨htext, hrest⟩ := Prod.mk.inj (Option.some.inj hs)
  exact ⟨(Option.some.inj htext).symm, hrest.symm⟩

end Text

/-! ## Numbers -/

section Number

/-- A text ends where something follows that does not occur in it. By induction on the text. -/
theorem append_inj_of_ends {P : Char → Prop} {a b r r' : List Char} (ha : ∀ c ∈ a, P c)
    (hb : ∀ c ∈ b, P c) (hr : ∀ c ∈ r.head?, ¬P c) (hr' : ∀ c ∈ r'.head?, ¬P c)
    (h : a ++ r = b ++ r') : a = b ∧ r = r' := by
  induction a generalizing b with
  | nil =>
    cases b with
    | nil => exact ⟨rfl, h⟩
    | cons d b =>
      obtain rfl : r = d :: (b ++ r') := h
      exact absurd (hb d List.mem_cons_self) (hr d rfl)
  | cons c a ih =>
    cases b with
    | nil =>
      obtain rfl : c :: (a ++ r) = r' := h
      exact absurd (ha c List.mem_cons_self) (hr' c rfl)
    | cons d b =>
      obtain ⟨rfl, hrest⟩ := List.cons.inj h
      obtain ⟨rfl, hr⟩ := ih (fun c hc => ha c (List.mem_cons_of_mem _ hc))
        (fun c hc => hb c (List.mem_cons_of_mem _ hc)) hrest
      exact ⟨rfl, hr⟩

/-- What may follow a written value: nothing, the next item or the end of a list or an object. -/
def Follows (r : List Char) : Prop := ∀ c ∈ r.head?, c = ',' ∨ c = ']' ∨ c = '}'

theorem Follows.not_isNumberPart {r : List Char} (h : Follows r) :
    ∀ c ∈ r.head?, ¬IsNumberPart c := by
  intro c hc
  unfold IsNumberPart IsNumeral
  rcases h c hc with rfl | rfl | rfl <;> decide

variable {v w : Value}

theorem isNumberPart_of_mem_compact (hv : v.isNumber = true) {c : Char}
    (hc : c ∈ (compact v).toList) : IsNumberPart c := by
  cases v with
  | int n => exact .inl (isNumeral_of_mem_toString hc)
  | float x => exact NumberLayout.standard.isNumberPart_of_mem_write hc
  | _ => cases hv

/-- An integer and a floating-point number are never written alike, and neither are two of one
kind. -/
theorem eq_of_compact_eq_of_isNumber (hv : v.isNumber = true) (hw : w.isNumber = true)
    (h : compact v = compact w) : v = w := by
  have hapart (n : Int) (x : Float) : toString n ≠ writeFloat x := fun heq =>
    not_isFloating_toString n (heq ▸ NumberLayout.standard.isFloating_write x)
  cases v with
  | int m =>
    cases w with
    | int n => exact congrArg Value.int (Int.repr_injective h)
    | float y => exact absurd h (hapart m y)
    | _ => cases hw
  | float x =>
    cases w with
    | int n => exact absurd h.symm (hapart n x)
    | float y => exact congrArg Value.float (NumberLayout.standard.write_injective h)
    | _ => cases hw
  | _ => cases hv

end Number

/-! ## Lists and objects -/

section Separated

variable {α : Type} {write : α → String}

/-- The further items, each behind a comma, and what follows them. -/
def further (write : α → String) : List α → List Char → List Char
  | [], r => r
  | a :: as, r => ',' :: ((write a).toList ++ further write as r)

theorem intercalate_append (a : α) (as : List α) (r : List Char) :
    (String.intercalate "," ((a :: as).map write)).toList ++ r =
      (write a).toList ++ further write as r := by
  induction as generalizing a with
  | nil =>
    rw [List.map_singleton, String.intercalate_singleton]
    rfl
  | cons b as ih =>
    rw [List.map_cons, List.map_cons, String.intercalate_cons_cons, String.toList_append,
      String.toList_append, List.append_assoc, List.append_assoc, ← List.map_cons, ih]
    rfl

/-- Whether the text of an item tells where it ends. -/
def Ends (write : α → String) (a : α) : Prop :=
  ∀ (b : α) (r r' : List Char), Follows r → Follows r' →
    (write a).toList ++ r = (write b).toList ++ r' → a = b ∧ r = r'

variable {as bs : List α} {close : Char} {r r' : List Char}

theorem follows_further (hclose : close = ']' ∨ close = '}') :
    Follows (further write as (close :: r)) := by
  intro c hc
  cases as with
  | nil =>
    cases hc
    exact .inr hclose
  | cons a as =>
    cases hc
    exact .inl rfl

/-- By induction on the items: a comma or the closing bracket tells whether there is another one. -/
theorem further_inj (hclose : close = ']' ∨ close = '}') (hends : ∀ a ∈ as, Ends write a)
    (h : further write as (close :: r) = further write bs (close :: r')) : as = bs ∧ r = r' := by
  have hcomma : close ≠ ',' := by rcases hclose with rfl | rfl <;> decide
  induction as generalizing bs with
  | nil =>
    cases bs with
    | nil => exact ⟨rfl, (List.cons.inj h).2⟩
    | cons b bs => exact absurd (List.cons.inj h).1 hcomma
  | cons a as ih =>
    cases bs with
    | nil => exact absurd (List.cons.inj h).1.symm hcomma
    | cons b bs =>
      obtain ⟨rfl, hrest⟩ := hends a List.mem_cons_self b _ _ (follows_further hclose)
        (follows_further hclose) (List.cons.inj h).2
      obtain ⟨rfl, hr⟩ := ih (fun a ha => hends a (List.mem_cons_of_mem _ ha)) hrest
      exact ⟨rfl, hr⟩

/-- Items that are separated by commas and closed by a bracket can be told apart, where the text of
each of them tells where it ends and does not start like the bracket. -/
theorem intercalate_append_inj (hclose : close = ']' ∨ close = '}')
    (hends : ∀ a ∈ as, Ends write a) (hstart : ∀ a s s', (write a).toList ++ s ≠ close :: s')
    (h : (String.intercalate "," (as.map write)).toList ++ close :: r =
      (String.intercalate "," (bs.map write)).toList ++ close :: r') : as = bs ∧ r = r' := by
  cases as with
  | nil =>
    cases bs with
    | nil => exact ⟨rfl, (List.cons.inj h).2⟩
    | cons b bs =>
      rw [intercalate_append] at h
      exact absurd h.symm (hstart b _ _)
  | cons a as =>
    rw [intercalate_append] at h
    cases bs with
    | nil => exact absurd h (hstart a _ _)
    | cons b bs =>
      rw [intercalate_append] at h
      obtain ⟨rfl, hrest⟩ := hends a List.mem_cons_self b _ _ (follows_further hclose)
        (follows_further hclose) h
      obtain ⟨rfl, hr⟩ := further_inj hclose
        (fun a ha => hends a (List.mem_cons_of_mem _ ha)) hrest
      exact ⟨rfl, hr⟩

end Separated

/-! ## Values -/

/-- The kinds of values that the first character of a text tells apart. -/
inductive Kind where
  | null
  | bool (b : Bool)
  | number
  | text
  | list
  | object

namespace Kind

/-- The kind of a value. -/
def ofValue : Value → Kind
  | .null => .null
  | .bool b => .bool b
  | .int _ => .number
  | .float _ => .number
  | .text _ => .text
  | .list _ => .list
  | .object _ => .object

/-- The kind of value that is written with this character at the start. -/
def ofStart (c : Char) : Kind :=
  if c = 'n' then .null
  else if c = 't' then .bool true
  else if c = 'f' then .bool false
  else if c = '"' then .text
  else if c = '[' then .list
  else if c = '{' then .object
  else .number

theorem ofStart_of_isNumeral {c : Char} (h : IsNumeral c) : ofStart c = .number := by
  unfold ofStart IsNumeral at *
  split_ifs <;> first | rfl | (subst c; revert h; decide)

end Kind

/-- The field of an object as it is written. -/
def compactField (p : String × Value) : String := quote p.1 ++ ":" ++ compact p.2

theorem compactItems_eq_map (items : List Value) : compactItems items = items.map compact := by
  induction items with
  | nil => rfl
  | cons v rest ih => rw [compactItems, ih, List.map_cons]

theorem compactFields_eq_map (fields : List (String × Value)) :
    compactFields fields = fields.map compactField := by
  induction fields with
  | nil => rfl
  | cons p rest ih => rw [compactFields, ih, List.map_cons, compactField]

theorem toList_compact_list (items : List Value) :
    (compact (.list items)).toList =
      '[' :: ((String.intercalate "," (items.map compact)).toList ++ [']']) := by
  rw [compact, compactItems_eq_map, String.toList_append, String.toList_append]
  rfl

theorem toList_compact_object (fields : List (String × Value)) :
    (compact (.object fields)).toList =
      '{' :: ((String.intercalate "," (fields.map compactField)).toList ++ ['}']) := by
  rw [compact, compactFields_eq_map, String.toList_append, String.toList_append]
  rfl

/-- **The first character of a written value tells its kind.** -/
theorem exists_start_compact (v : Value) :
    ∃ c rest, (compact v).toList = c :: rest ∧ Kind.ofStart c = Kind.ofValue v := by
  cases v with
  | null => exact ⟨'n', _, rfl, rfl⟩
  | bool b => cases b <;> exact ⟨_, _, rfl, rfl⟩
  | int n =>
    obtain ⟨c, rest, hlist⟩ := List.exists_cons_of_ne_nil (toList_toString_int_ne_nil n)
    have hc : IsNumeral c := isNumeral_of_mem_toString (hlist ▸ List.mem_cons_self)
    exact ⟨c, rest, hlist, Kind.ofStart_of_isNumeral hc⟩
  | float x =>
    obtain ⟨c, hhead, hc⟩ := (NumberLayout.standard.isFloating_write x).starts
    obtain ⟨rest, hlist⟩ := List.head?_eq_some_iff.1 hhead
    refine ⟨c, rest, hlist, ?_⟩
    rcases hc with hc | rfl
    · exact Kind.ofStart_of_isNumeral hc
    · rfl
  | text s => exact ⟨'"', _, toList_quote s, rfl⟩
  | list items => exact ⟨'[', _, toList_compact_list items, rfl⟩
  | object fields => exact ⟨'{', _, toList_compact_object fields, rfl⟩

theorem kind_eq_of_append_eq {v w : Value} {r r' : List Char}
    (h : (compact v).toList ++ r = (compact w).toList ++ r') :
    Kind.ofValue v = Kind.ofValue w := by
  obtain ⟨c, rest, hv, hkind⟩ := exists_start_compact v
  obtain ⟨d, rest', hw, hkind'⟩ := exists_start_compact w
  rw [hv, hw] at h
  rw [← hkind, ← hkind', (List.cons.inj h).1]

theorem isNumber_iff_kind (v : Value) : v.isNumber = true ↔ Kind.ofValue v = .number := by
  cases v <;> simp [Value.isNumber, Kind.ofValue]

theorem ends_compact_of_isNumber {v : Value} (hv : v.isNumber = true) : Ends compact v := by
  intro w r r' hr hr' h
  have hw : w.isNumber = true := by
    rw [isNumber_iff_kind, ← kind_eq_of_append_eq h, ← isNumber_iff_kind]
    exact hv
  obtain ⟨htext, hrest⟩ := append_inj_of_ends (fun c => isNumberPart_of_mem_compact hv)
    (fun c => isNumberPart_of_mem_compact hw) hr.not_isNumberPart hr'.not_isNumberPart h
  exact ⟨eq_of_compact_eq_of_isNumber hv hw (String.toList_inj.1 htext), hrest⟩

/-- No value starts with a closing bracket, and no field does. -/
theorem compact_append_ne_cons {close : Char} (hclose : close = ']' ∨ close = '}') (v : Value)
    (r r' : List Char) : (compact v).toList ++ r ≠ close :: r' := by
  intro h
  obtain ⟨c, rest, hv, hkind⟩ := exists_start_compact v
  obtain rfl : c = close := by
    rw [hv] at h
    exact (List.cons.inj h).1
  have hnumber : v.isNumber = true := by
    rw [isNumber_iff_kind, ← hkind]
    rcases hclose with rfl | rfl <;> rfl
  have hfollows : Follows [c] := fun d hd => Option.some.inj hd ▸ .inr hclose
  exact hfollows.not_isNumberPart c rfl
    (isNumberPart_of_mem_compact hnumber (hv ▸ List.mem_cons_self))

theorem compactField_append (p : String × Value) (r : List Char) :
    (compactField p).toList ++ r = (quote p.1).toList ++ ':' :: ((compact p.2).toList ++ r) := by
  rw [compactField, String.toList_append, String.toList_append, List.append_assoc,
    List.append_assoc]
  rfl

theorem compactField_append_ne_cons {close : Char} (hclose : close = ']' ∨ close = '}')
    (p : String × Value) (r r' : List Char) : (compactField p).toList ++ r ≠ close :: r' := by
  intro h
  rw [compactField_append, toList_quote] at h
  obtain rfl := (List.cons.inj h).1
  rcases hclose with hclose | hclose <;> exact absurd hclose (by decide)

theorem ends_compactField {p : String × Value} (h : Ends compact p.2) : Ends compactField p := by
  obtain ⟨k, v⟩ := p
  intro ⟨l, w⟩ r r' hr hr' htext
  rw [compactField_append, compactField_append] at htext
  obtain ⟨rfl, hrest⟩ := quote_append_inj htext
  obtain ⟨rfl, hend⟩ := h w r r' hr hr' (List.cons.inj hrest).2
  exact ⟨rfl, hend⟩

/-- **The text of a value tells where it ends.** By induction on the value: two texts with one
start are of values of one kind, and their parts are the same by induction. -/
theorem ends_compact (v : Value) : Ends compact v := by
  induction v using Value.induction with
  | null =>
    intro w r r' _ _ h
    have hkind := kind_eq_of_append_eq h
    cases w with
    | null => exact ⟨rfl, List.append_cancel_left h⟩
    | _ => cases hkind
  | bool b =>
    intro w r r' _ _ h
    have hkind := kind_eq_of_append_eq h
    cases w with
    | bool c =>
      cases hkind
      exact ⟨rfl, List.append_cancel_left h⟩
    | _ => cases hkind
  | int n => exact ends_compact_of_isNumber rfl
  | float x => exact ends_compact_of_isNumber rfl
  | text s =>
    intro w r r' _ _ h
    have hkind := kind_eq_of_append_eq h
    cases w with
    | text t =>
      obtain ⟨rfl, hrest⟩ := quote_append_inj h
      exact ⟨rfl, hrest⟩
    | _ => cases hkind
  | list items ih =>
    intro w r r' _ _ h
    have hkind := kind_eq_of_append_eq h
    cases w with
    | list other =>
      rw [toList_compact_list, toList_compact_list, List.cons_append, List.cons_append,
        List.append_assoc, List.append_assoc] at h
      obtain ⟨rfl, hrest⟩ := intercalate_append_inj (.inl rfl) ih (compact_append_ne_cons (.inl rfl))
        (List.cons.inj h).2
      exact ⟨rfl, hrest⟩
    | _ => cases hkind
  | object fields ih =>
    intro w r r' _ _ h
    have hkind := kind_eq_of_append_eq h
    cases w with
    | object other =>
      rw [toList_compact_object, toList_compact_object, List.cons_append, List.cons_append,
        List.append_assoc, List.append_assoc] at h
      obtain ⟨rfl, hrest⟩ := intercalate_append_inj (.inr rfl)
        (fun p hp => ends_compactField (ih p hp)) (compactField_append_ne_cons (.inr rfl))
        (List.cons.inj h).2
      exact ⟨rfl, hrest⟩
    | _ => cases hkind

/-- **Two values are never written alike.** -/
theorem compact_injective : Function.Injective compact := by
  intro v w h
  have hnothing : Follows [] := fun c hc => by cases hc
  exact (ends_compact v w [] [] hnothing hnothing (by rw [h])).1

end Json

end WorkflowGraph
