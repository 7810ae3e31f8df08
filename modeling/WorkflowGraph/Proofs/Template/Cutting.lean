import WorkflowGraph.Proofs.Template
import WorkflowGraph.Proofs.Text.Pattern

/-!
# Filling the placeholders of a template

A placeholder is a match of a pattern: one brace or two, blanks, the start `state.` or nothing, a
dotted path, blanks, and one brace or two. The pattern is read with backtracking, but gives nothing
back that could be read in another way, so that `readHole?`, which never goes back, finds the same
placeholders (`placeholder?_brace`).

A template is cut at the placeholders from the left (`Cuts`): none starts in the text in front of
the next one, and the search goes on behind it. There is exactly one such cutting, and rendering
puts one text in the place of each of its placeholders and changes nothing else
(`fills_each_placeholder_once`).
-/

set_option autoImplicit false

namespace WorkflowGraph.Template

/-! ## The pattern of a placeholder -/

/-- The braces and blanks in front of a path, and the start `state.` or nothing. -/
def opening : Pattern :=
  .chain (.one (· == '\x7b')) <| .chain (.maybe (.one (· == '\x7b'))) <|
    .chain (.many (.one Text.isBlank)) (.maybe (.literal 's' ['t', 'a', 't', 'e', '.']))

/-- A further segment of a path. -/
def segment : Pattern := .chain (.one (· == '.')) (.chain (.one inName) (.many (.one inName)))

/-- A path, with dots between its segments. -/
def dotted : Pattern := .chain (.one startsName) (.chain (.many (.one inName)) (.many segment))

/-- The blanks and braces behind a path. -/
def closing : Pattern :=
  .chain (.many (.one Text.isBlank)) (.chain (.maybe (.one (· == '\x7d'))) (.one (· == '\x7d')))

/-- The placeholder at the start of a text: its path, and the text behind it. -/
def placeholder? (cs : List Char) : Option (String × List Char) :=
  (Pattern.capture? opening dotted closing cs).map fun (path, after) => (String.ofList path, after)

/-! ## Cutting a template -/

/-- A placeholder with the literal text in front of it. -/
structure Slot where
  before : List Char
  written : List Char
  path : String

/-- A template as literal text and placeholders in turn. -/
structure Cutting where
  slots : List Slot
  last : List Char

/-- No placeholder starts at a character of a text with the given rest behind it. -/
def Silent (text rest : List Char) : Prop :=
  ∀ front c back, text = front ++ c :: back → placeholder? (c :: (back ++ rest)) = none

/-- The cutting of a text at its placeholders. -/
inductive Cuts : List Char → Cutting → Prop
  | last {text : List Char} (hsilent : Silent text []) : Cuts text ⟨[], text⟩
  | slot {before written rest : List Char} {path : String} {cutting : Cutting}
      (hsilent : Silent before (written ++ rest))
      (hmatch : placeholder? (written ++ rest) = some (path, rest)) (hrest : Cuts rest cutting) :
      Cuts (before ++ (written ++ rest)) ⟨⟨before, written, path⟩ :: cutting.slots, cutting.last⟩

/-- The text that is put in the place of a placeholder: a text as it is, nothing for no value and
for null, and the JSON text of any other value. -/
def Slot.filling (slot : Slot) (fields : Fields) : String :=
  match fields.at? slot.path with
  | some (.text s) => s
  | none | some .null => ""
  | some v => Json.compact v

/-- The text that a cutting cuts. -/
def Cutting.text (cutting : Cutting) : List Char :=
  (cutting.slots.flatMap fun slot => slot.before ++ slot.written) ++ cutting.last

/-- The text of a cutting with its placeholders filled. -/
def Cutting.filled (cutting : Cutting) (fields : Fields) : List Char :=
  (cutting.slots.flatMap fun slot => slot.before ++ (slot.filling fields).toList) ++ cutting.last

/-! ## What the pattern reads -/

/-- Whether a path can go on with a character. -/
def goesOn (c : Char) : Bool := inName c || c == '.'

theorem inName_of_startsName {c : Char} (h : startsName c) : inName c := by
  simp [inName, h]

theorem takeSegments_nil (bound : Nat) : takeSegments bound [] = ([], []) := by
  cases bound <;> rfl

theorem takeSegments_of_ne {c : Char} (h : c ≠ '.') (bound : Nat) (rest : List Char) :
    takeSegments bound (c :: rest) = ([], c :: rest) := by
  unfold takeSegments
  split
  · next heq => exact absurd (List.cons.inj heq).1 h
  · rfl

theorem takeWhile_isEmpty (rest : List Char) :
    (rest.takeWhile inName).isEmpty = !rest.head?.any inName := by
  cases rest with
  | nil => rfl
  | cons c cs => by_cases h : inName c <;> simp [h]

theorem takeSegments_dot (bound : Nat) (rest : List Char) :
    takeSegments (bound + 1) ('.' :: rest) =
      if rest.head?.any inName then
        (rest.takeWhile inName :: (takeSegments bound (rest.dropWhile inName)).1,
          (takeSegments bound (rest.dropWhile inName)).2)
      else ([], '.' :: rest) := by
  rw [takeSegments, takeWhile_isEmpty]
  by_cases h : rest.head?.any inName <;> simp [h]

theorem head?_takeSegments (bound : Nat) (rest : List Char) :
    ((takeSegments (bound + 1) ('.' :: rest)).1.head?.any fun s => s.head?.any startsName) =
      rest.head?.any startsName := by
  rw [takeSegments_dot]
  cases rest with
  | nil => rfl
  | cons c cs =>
    by_cases hc : inName c
    · simp [hc]
    · have hstarts : startsName c = false := by
        simp only [inName, Bool.or_eq_true, not_or] at hc
        simpa using hc.1
      simp [hc, hstarts]

/-- The text of segments, each with a dot in front of it. -/
def dots (segments : List (List Char)) : List Char := segments.flatMap fun s => '.' :: s

theorem dots_takeSegments (bound : Nat) (cs : List Char) :
    dots (takeSegments bound cs).1 ++ (takeSegments bound cs).2 = cs := by
  induction bound generalizing cs with
  | zero => simp [takeSegments, dots]
  | succ bound ih =>
    cases cs with
    | nil => rfl
    | cons c rest =>
      by_cases hc : c = '.'
      · subst hc
        rw [takeSegments_dot]
        split
        · have hrest := ih (rest.dropWhile inName)
          simp only [dots, List.flatMap_cons, List.cons_append, List.append_assoc] at hrest ⊢
          rw [hrest, List.takeWhile_append_dropWhile]
        · rfl
      · rw [takeSegments_of_ne hc]
        rfl

theorem rests_segment_of_ne {c : Char} (h : c ≠ '.') (rest : List Char) :
    segment.rests (c :: rest) = [] := by
  simp [segment, Pattern.rests_one_cons, h]

theorem rests_segment_of_head {rest : List Char} (h : rest.head?.any inName = false) :
    segment.rests ('.' :: rest) = [] := by
  cases rest with
  | nil => rfl
  | cons c cs => simp_all [segment, Pattern.rests_one_cons]

/-- A segment is taken up to its end. -/
theorem greedy_segment {rest : List Char} (h : rest.head?.any inName) :
    Pattern.Greedy inName (rest.dropWhile inName) (segment.rests ('.' :: rest)) := by
  cases rest with
  | nil => cases h
  | cons c cs =>
    have hc : inName c := h
    have hgreedy := Pattern.greedy_many_one inName cs
    simpa [segment, Pattern.rests_one_cons, hc] using hgreedy

/-- All further segments are taken. -/
theorem greedy_segments {fuel bound : Nat} {cs : List Char} (hfuel : cs.length ≤ fuel)
    (hbound : cs.length ≤ bound) :
    Pattern.Greedy goesOn (takeSegments bound cs).2 (Pattern.repeats segment.rests fuel cs) := by
  induction fuel generalizing bound cs with
  | zero =>
    obtain rfl := List.length_eq_zero_iff.1 (Nat.le_zero.1 hfuel)
    rw [takeSegments_nil]
    exact Pattern.greedy_single _ _
  | succ fuel ih =>
    cases cs with
    | nil =>
      rw [takeSegments_nil, Pattern.repeats_of_nil (by rfl)]
      exact Pattern.greedy_single _ _
    | cons c rest =>
      obtain ⟨bound, rfl⟩ := Nat.exists_eq_add_of_lt (Nat.lt_of_lt_of_le (Nat.succ_pos _) hbound)
      rw [Nat.zero_add] at hbound ⊢
      by_cases hc : c = '.'
      · subst hc
        rw [takeSegments_dot]
        split
        · next hhead =>
          have hshort : (rest.dropWhile inName).length ≤ rest.length :=
            (List.dropWhile_suffix inName).length_le
          simp only [List.length_cons] at hfuel hbound
          have hrest : (rest.dropWhile inName).length ≤ bound := by omega
          have hmore := ih (by omega) hrest
          refine ((greedy_segment hhead).flatMap hmore ?_ ?_).concat (by decide)
          · intro d hd
            simp [goesOn, hd]
          · intro d ds hd
            refine Pattern.repeats_of_nil (rests_segment_of_ne ?_ ds) fuel
            rintro rfl
            revert hd
            decide
        · next hhead =>
          rw [Pattern.repeats_of_nil (rests_segment_of_head (by simpa using hhead))]
          exact Pattern.greedy_single _ _
      · rw [takeSegments_of_ne hc, Pattern.repeats_of_nil (rests_segment_of_ne hc rest)]
        exact Pattern.greedy_single _ _

theorem rests_dotted_of_head {cs : List Char} (h : cs.head?.any startsName = false) :
    dotted.rests cs = [] := by
  cases cs with
  | nil => rfl
  | cons c rest => simp_all [dotted, Pattern.rests_one_cons]

/-- A path is taken up to its end. -/
theorem greedy_dotted {bound : Nat} {cs : List Char} (h : cs.head?.any startsName)
    (hbound : cs.length ≤ bound) :
    Pattern.Greedy goesOn (takeSegments bound (cs.dropWhile inName)).2 (dotted.rests cs) := by
  cases cs with
  | nil => cases h
  | cons c rest =>
    have hc : startsName c := h
    have hshort : (rest.dropWhile inName).length ≤ rest.length :=
      (List.dropWhile_suffix inName).length_le
    rw [List.dropWhile_cons_of_pos (inName_of_startsName hc), dotted, Pattern.rests_chain,
      Pattern.rests_one_cons, if_pos hc, List.flatMap_singleton, Pattern.rests_chain]
    refine (Pattern.greedy_many_one inName rest).flatMap ?_ ?_ ?_
    · exact greedy_segments (Nat.le_refl _) (hshort.trans (by simp at hbound; omega))
    · intro d hd
      simp [goesOn, hd]
    · intro d ds hd
      refine Pattern.repeats_of_nil (rests_segment_of_ne ?_ ds) _
      rintro rfl
      revert hd
      decide

/-- What is left behind the blanks and the braces that close a placeholder. -/
def closed? (cs : List Char) : Option (List Char) :=
  match Text.trimStart cs with
  | '\x7d' :: '\x7d' :: after => some after
  | '\x7d' :: after => some after
  | _ => none

theorem rests_closing (cs : List Char) :
    closing.rests cs = ((Pattern.maybe (.one (· == '\x7d'))).rests (Text.trimStart cs)).flatMap
      (Pattern.one (· == '\x7d')).rests := by
  refine (Pattern.greedy_many_one Text.isBlank cs).flatMap_eq fun c rest hc => ?_
  have hne : c ≠ '\x7d' := by
    rintro rfl
    revert hc
    decide
  simp [Pattern.rests_one_cons, hne]

theorem head?_rests_closing (cs : List Char) : (closing.rests cs).head? = closed? cs := by
  rw [rests_closing, closed?]
  generalize Text.trimStart cs = ds
  split
  · simp [Pattern.rests_one_cons]
  · next after hone =>
    cases after with
    | nil => rfl
    | cons d more =>
      have hd : d ≠ '\x7d' := by
        rintro rfl
        exact hone more rfl
      simp [Pattern.rests_one_cons, hd]
  · next htwo hone =>
    cases ds with
    | nil => rfl
    | cons d more =>
      have hd : d ≠ '\x7d' := by
        rintro rfl
        exact hone more rfl
      simp [Pattern.rests_one_cons, hd]

theorem not_isBlank_of_goesOn {c : Char} (h : goesOn c) : Text.isBlank c = false := by
  simp only [goesOn, inName, Bool.or_eq_true, beq_iff_eq] at h
  obtain (hstarts | hdigit) | rfl := h
  · exact isBlank_of_startsName hstarts
  · simp only [Bool.and_eq_true, decide_eq_true_eq, Char.le_def, UInt32.le_iff_toNat_le] at hdigit
    have hlow : 48 ≤ c.toNat := hdigit.1
    have hhigh : c.toNat ≤ 57 := hdigit.2
    simp [Text.isBlank]
    omega
  · decide

/-- No placeholder is closed where its path could go on. -/
theorem rests_closing_of_goesOn {c : Char} (h : goesOn c) (rest : List Char) :
    closing.rests (c :: rest) = [] := by
  have hne : c ≠ '\x7d' := by
    rintro rfl
    revert h
    decide
  rw [rests_closing, trimStart_cons (not_isBlank_of_goesOn h)]
  simp [Pattern.rests_one_cons, hne]

/-- The ways in which a path and what closes a placeholder read a text. -/
def readings (cs : List Char) : List (List Char × List Char) :=
  (dotted.rests cs).flatMap fun behind =>
    (closing.rests behind).map fun after => (cs.take (cs.length - behind.length), after)

theorem readings_of_head {cs : List Char} (h : cs.head?.any startsName = false) :
    readings cs = [] := by
  rw [readings, rests_dotted_of_head h, List.flatMap_nil]

theorem take_of_append {cs front back : List Char} (h : front ++ back = cs) :
    cs.take (cs.length - back.length) = front := by
  subst h
  simp

/-- The path of a placeholder goes as far as it can. -/
theorem head?_readings {bound : Nat} {cs : List Char} (h : cs.head?.any startsName)
    (hbound : cs.length ≤ bound) :
    (readings cs).head? = (closed? (takeSegments bound (cs.dropWhile inName)).2).map fun after =>
      (cs.takeWhile inName ++ dots (takeSegments bound (cs.dropWhile inName)).1, after) := by
  have hcut : (cs.takeWhile inName ++ dots (takeSegments bound (cs.dropWhile inName)).1) ++
      (takeSegments bound (cs.dropWhile inName)).2 = cs := by
    rw [List.append_assoc, dots_takeSegments, List.takeWhile_append_dropWhile]
  rw [readings, (greedy_dotted h hbound).flatMap_eq, List.head?_map, head?_rests_closing,
    take_of_append hcut]
  intro c rest hc
  rw [rests_closing_of_goesOn hc, List.map_nil]

/-! ## Leaving out the start `state.` -/

/-- The start of a path that may be left out. -/
def start : List Char := ['s', 't', 'a', 't', 'e', '.']

/-- The text of segments with dots between them. -/
def joined : List (List Char) → List Char
  | [] => []
  | first :: more => first ++ dots more

theorem ofList_joined (segments : List (List Char)) :
    String.ofList (joined segments) = String.intercalate "." (segments.map String.ofList) := by
  apply String.toList_inj.1
  cases segments with
  | nil => rfl
  | cons first more =>
    rw [List.map_cons, Path.toList_intercalate]
    simp [joined, dots, Path.behind, List.flatMap_map]

theorem withoutState_of_head {first : List Char} {more : List (List Char)}
    (h : first = ['s', 't', 'a', 't', 'e'] → more.head?.any (·.head?.any startsName) = false) :
    withoutState (first :: more) = first :: more := by
  cases more with
  | nil => rfl
  | cons second rest =>
    rw [withoutState, if_neg]
    rintro ⟨hfirst, hsecond⟩
    simp [hsecond] at h
    exact h hfirst

/-- The ways to read a placeholder behind its braces and blanks. -/
def endings (cs : List Char) : List (List Char × List Char) :=
  ((Pattern.maybe (.literal 's' ['t', 'a', 't', 'e', '.'])).rests cs).flatMap readings

theorem endings_of_not_start {cs : List Char} (h : ¬ start <+: cs) :
    endings cs = readings cs := by
  have hnone : (Pattern.literal 's' ['t', 'a', 't', 'e', '.']).rests cs = [] := by
    rw [Pattern.rests_literal]
    exact if_neg (by simpa [start] using h)
  rw [endings, Pattern.rests_maybe, hnone, List.nil_append, List.flatMap_singleton]

theorem endings_start (cs : List Char) :
    endings (start ++ cs) = readings cs ++ readings (start ++ cs) := by
  have hrests : (Pattern.literal 's' ['t', 'a', 't', 'e', '.']).rests (start ++ cs) = [cs] := by
    rw [Pattern.rests_literal]
    rfl
  rw [endings, Pattern.rests_maybe, hrests, List.singleton_append, List.flatMap_cons,
    List.flatMap_singleton]

theorem endings_of_head {cs : List Char} (h : cs.head?.any startsName = false) :
    endings cs = [] := by
  rw [endings_of_not_start, readings_of_head h]
  rintro ⟨rest, rfl⟩
  cases h

/-- **The start `state.` is left out where a name follows it**, and its path goes as far as it
can. -/
theorem head?_endings {bound : Nat} {cs : List Char} (h : cs.head?.any startsName)
    (hbound : cs.length ≤ bound) :
    (endings cs).head? = (closed? (takeSegments bound (cs.dropWhile inName)).2).map fun after =>
      (joined (withoutState
        (cs.takeWhile inName :: (takeSegments bound (cs.dropWhile inName)).1)), after) := by
  have hread := head?_readings h hbound
  by_cases hstart : start <+: cs
  · obtain ⟨rest, rfl⟩ := hstart
    have htake : (start ++ rest).takeWhile inName = ['s', 't', 'a', 't', 'e'] := rfl
    have hdrop : (start ++ rest).dropWhile inName = '.' :: rest := rfl
    have hlength : start.length + rest.length ≤ bound := by simpa using hbound
    obtain ⟨bound, rfl⟩ : ∃ n, bound = n + 1 := Nat.exists_eq_succ_of_ne_zero (by
      rintro rfl
      simp [start] at hlength)
    rw [endings_start, List.head?_append, hread, htake, hdrop]
    by_cases hname : rest.head?.any startsName
    · -- both ways end at the same place, so that the second one is not needed
      have hin : rest.head?.any inName := by
        cases rest with
        | nil => cases hname
        | cons c more => exact inName_of_startsName hname
      have hsecond := head?_takeSegments bound rest
      have hrest : rest.length ≤ bound := by
        simp [start] at hlength
        omega
      rw [takeSegments_dot, if_pos hin] at hsecond ⊢
      rw [head?_readings hname hrest, withoutState, if_pos ⟨rfl, hsecond.trans hname⟩]
      cases closed? (takeSegments bound (rest.dropWhile inName)).2 <;> rfl
    · have hname : rest.head?.any startsName = false := by simpa using hname
      rw [withoutState_of_head fun _ => (head?_takeSegments bound rest).trans hname,
        readings_of_head hname]
      rfl
  · rw [endings_of_not_start hstart, hread, withoutState_of_head]
    · rfl
    · intro hfirst
      cases hmore : (takeSegments bound (cs.dropWhile inName)).1 with
      | nil => rfl
      | cons second more =>
        -- the dot in front of the second segment would make it the start `state.`
        have hcut := dots_takeSegments bound (cs.dropWhile inName)
        have htext := List.takeWhile_append_dropWhile (p := inName) (l := cs)
        rw [hfirst, ← hcut, hmore] at htext
        refine absurd ?_ hstart
        rw [← htext]
        exact ⟨_, rfl⟩

/-- What is read behind the first brace of a placeholder. -/
theorem readHole?_eq (cs : List Char) :
    readHole? cs = ((endings (Text.trimStart
      (match cs with
        | '\x7b' :: rest => rest
        | _ => cs))).head?).map fun (path, after) => (String.ofList path, after) := by
  unfold readHole?
  dsimp only
  generalize Text.trimStart _ = ds
  by_cases hname : ds.head?.any startsName
  · rw [if_pos hname, head?_endings hname (Nat.le_refl _), Option.map_map, closed?]
    generalize takeSegments ds.length (ds.dropWhile inName) = segments
    obtain ⟨more, rest⟩ := segments
    dsimp only
    generalize Text.trimStart rest = es
    split <;> simp [readHole?.pathOf, ofList_joined]
  · rw [if_neg hname, endings_of_head (by simpa using hname)]
    rfl

/-- **Reading a placeholder never goes back**, and finds what the pattern finds. -/
theorem placeholder?_brace (rest : List Char) : placeholder? ('\x7b' :: rest) = readHole? rest := by
  have hblanks (cs : List Char) :
      ((Pattern.many (.one Text.isBlank)).rests cs).flatMap endings =
        endings (Text.trimStart cs) := by
    refine (Pattern.greedy_many_one Text.isBlank cs).flatMap_eq fun c rest hc => ?_
    apply endings_of_head
    cases hname : startsName c with
    | false => exact hname
    | true => simp [isBlank_of_startsName hname] at hc
  have hcaptures : Pattern.captures opening dotted closing ('\x7b' :: rest) =
      ((Pattern.maybe (.one (· == '\x7b'))).rests rest).flatMap fun cs =>
        endings (Text.trimStart cs) := by
    simp only [← hblanks]
    calc Pattern.captures opening dotted closing ('\x7b' :: rest)
        = (opening.rests ('\x7b' :: rest)).flatMap readings := rfl
      _ = _ := by
        rw [opening, Pattern.rests_chain, Pattern.rests_one_cons, if_pos (by rfl),
          List.flatMap_singleton, Pattern.rests_chain, List.flatMap_assoc]
        simp only [Pattern.rests_chain, List.flatMap_assoc]
        rfl
  rw [placeholder?, Pattern.capture?, hcaptures, readHole?_eq]
  split
  · next more =>
    -- a second brace that is not taken is no start of a path
    have hbrace : endings (Text.trimStart ('\x7b' :: more)) = [] := by
      rw [trimStart_cons (by decide)]
      exact endings_of_head (by rfl)
    simp [Pattern.rests_one_cons, hbrace]
  · next hne =>
    cases rest with
    | nil => rfl
    | cons c more =>
      have hc : c ≠ '\x7b' := by
        rintro rfl
        exact hne more rfl
      simp [Pattern.rests_one_cons, hc]

theorem placeholder?_of_ne {c : Char} (h : c ≠ '\x7b') (rest : List Char) :
    placeholder? (c :: rest) = none := by
  simp [placeholder?, Pattern.capture?, Pattern.captures, opening, Pattern.rests_one_cons, h]

/-- **A placeholder is what is read behind a brace.** -/
theorem placeholder?_cons (c : Char) (rest : List Char) :
    placeholder? (c :: rest) = if c = '\x7b' then readHole? rest else none := by
  by_cases hc : c = '\x7b'
  · rw [hc, placeholder?_brace, if_pos rfl]
  · rw [placeholder?_of_ne hc, if_neg hc]

theorem suffix_of_mem_endings {cs path after : List Char} (h : (path, after) ∈ endings cs) :
    after <:+ cs := by
  obtain ⟨inside, hinside, hread⟩ := List.mem_flatMap.1 h
  obtain ⟨behind, hbehind, hclosed⟩ := List.mem_flatMap.1 hread
  obtain ⟨rest, hrest, heq⟩ := List.mem_map.1 hclosed
  obtain ⟨-, rfl⟩ := Prod.mk.inj heq
  exact ((Pattern.suffix_of_mem_rests hrest).trans (Pattern.suffix_of_mem_rests hbehind)).trans
    (Pattern.suffix_of_mem_rests hinside)

/-- What is left behind a placeholder is the end of the text. -/
theorem suffix_of_readHole? {cs after : List Char} {path : String}
    (h : readHole? cs = some (path, after)) : after <:+ cs := by
  rw [readHole?_eq] at h
  obtain ⟨⟨inner, rest⟩, hhead, heq⟩ := Option.map_eq_some_iff.1 h
  obtain ⟨-, rfl⟩ := Prod.mk.inj heq
  refine (suffix_of_mem_endings (List.mem_of_mem_head? hhead)).trans ?_
  refine (List.dropWhile_suffix _).trans ?_
  split
  · exact List.suffix_cons _ _
  · exact List.suffix_rfl

/-! ## The one cutting of a template -/

theorem silent_nil (rest : List Char) : Silent [] rest := by
  intro front c back h
  simp at h

theorem Silent.cons {c : Char} {text rest : List Char}
    (h : placeholder? (c :: (text ++ rest)) = none) (htext : Silent text rest) :
    Silent (c :: text) rest := by
  intro front d back heq
  cases front with
  | nil =>
    obtain ⟨rfl, rfl⟩ := List.cons.inj heq
    exact h
  | cons e more => exact htext more d back (List.cons.inj heq).2

/-- Where a placeholder starts, the silent text in front of the next one has ended. -/
theorem Silent.isPrefix {before text front rest : List Char} {found : String × List Char}
    (hsilent : Silent before text) (hfound : placeholder? rest = some found)
    (h : before ++ text = front ++ rest) : before <+: front := by
  rcases List.append_eq_append_iff.1 h with ⟨gap, hfront, -⟩ | ⟨gap, hbefore, hrest⟩
  · exact ⟨gap, hfront.symm⟩
  · cases gap with
    | nil => exact ⟨[], by simpa using hbefore⟩
    | cons c more =>
      have hnone := hsilent front c more hbefore
      rw [← List.cons_append, ← hrest, hfound] at hnone
      cases hnone

/-- No placeholder starts in a text that is silent as a whole. -/
theorem Silent.false_of_match {text before rest : List Char} {found : String × List Char}
    (hsilent : Silent text []) (hfound : placeholder? rest = some found)
    (h : text = before ++ rest) : False := by
  have hlength := (hsilent.isPrefix hfound (by rw [List.append_nil, h])).length_le
  have hnil : rest = [] := by
    rw [h, List.length_append] at hlength
    exact List.length_eq_zero_iff.1 (by omega)
  rw [hnil] at hfound
  cases hfound

namespace Cuts

variable {text : List Char} {cutting other : Cutting}

/-- A cutting cuts its text. -/
theorem text_eq (h : Cuts text cutting) : cutting.text = text := by
  induction h with
  | last hsilent => rfl
  | slot hsilent hmatch hrest ih =>
    rw [← ih]
    simp [Cutting.text]

/-- **There is no other cutting** of a text. -/
theorem unique (h : Cuts text cutting) (hother : Cuts text other) : other = cutting := by
  induction h generalizing other with
  | @last text hsilent =>
    generalize hall : text = all at hother
    cases hother with
    | last _ => rfl
    | slot _ hmatch _ => exact (hsilent.false_of_match hmatch hall).elim
  | @slot before written rest path cutting hsilent hmatch hrest ih =>
    generalize hall : before ++ (written ++ rest) = all at hother
    cases hother with
    | last hsilent' => exact (hsilent'.false_of_match hmatch hall.symm).elim
    | slot hsilent' hmatch' hrest' =>
      have hbefore := (hsilent.isPrefix hmatch' hall).eq_of_length_le
        (hsilent'.isPrefix hmatch hall.symm).length_le
      subst hbefore
      have hwhole := List.append_cancel_left hall
      rw [← hwhole, hmatch] at hmatch'
      obtain ⟨rfl, rfl⟩ := Prod.mk.inj (Option.some.inj hmatch')
      obtain rfl := List.append_cancel_right hwhole
      rw [ih hrest']

end Cuts

/-- A cutting of the text behind a further character. -/
def Cutting.push (c : Char) (cutting : Cutting) : Cutting :=
  match cutting.slots with
  | [] => ⟨[], c :: cutting.last⟩
  | slot :: more => ⟨{ slot with before := c :: slot.before } :: more, cutting.last⟩

theorem Cuts.push {c : Char} {text : List Char} {cutting : Cutting}
    (h : placeholder? (c :: text) = none) (hcuts : Cuts text cutting) :
    Cuts (c :: text) (cutting.push c) := by
  cases hcuts with
  | last hsilent => exact .last (hsilent.cons (by simpa using h))
  | slot hsilent hmatch hrest => exact .slot (hsilent.cons h) hmatch hrest

theorem Cutting.paths_push (c : Char) (cutting : Cutting) :
    (cutting.push c).slots.map Slot.path = cutting.slots.map Slot.path := by
  unfold push
  split <;> simp [*]

theorem Cutting.filled_push (c : Char) (cutting : Cutting) (fields : Fields) :
    (cutting.push c).filled fields = c :: cutting.filled fields := by
  unfold push filled
  split <;> simp [*, Slot.filling]

/-- Whether pieces are those of a cutting: they have its paths, and are filled as it is. -/
structure Cutting.Shows (cutting : Cutting) (pieces : List Piece) : Prop where
  paths : pieces.filterMap Piece.path? = cutting.slots.map Slot.path
  filled : ∀ fields, (pieces.flatMap fun piece => (piece.render fields).toList) =
    cutting.filled fields

theorem insertion_eq (slot : Slot) (fields : Fields) :
    insertion (fields.at? slot.path) = slot.filling fields := by
  rw [Slot.filling]
  generalize fields.at? slot.path = value
  cases value with
  | none => rfl
  | some v => cases v <;> rfl

namespace Cutting.Shows

variable {cutting : Cutting} {pieces : List Piece}

theorem nil : Shows ⟨[], []⟩ [] := ⟨rfl, fun _ => rfl⟩

theorem push (h : cutting.Shows pieces) (c : Char) :
    (cutting.push c).Shows (consLiteral c pieces) := by
  have hpieces (fields : Fields) :
      ((consLiteral c pieces).flatMap fun piece => (piece.render fields).toList) =
        c :: pieces.flatMap fun piece => (piece.render fields).toList := by
    unfold consLiteral
    split <;> simp [Piece.render]
  have hpaths : (consLiteral c pieces).filterMap Piece.path? = pieces.filterMap Piece.path? := by
    unfold consLiteral
    split <;> rfl
  refine ⟨?_, fun fields => ?_⟩
  · rw [hpaths, h.paths, paths_push]
  · rw [hpieces, h.filled, filled_push]

theorem slot (h : cutting.Shows pieces) (written : List Char) (path : String) :
    Shows ⟨⟨[], written, path⟩ :: cutting.slots, cutting.last⟩ (.hole written path :: pieces) := by
  refine ⟨?_, fun fields => ?_⟩
  · simp [Piece.path?, h.paths]
  · have hslot := insertion_eq ⟨[], written, path⟩ fields
    rw [List.flatMap_cons, h.filled fields, Piece.render, hslot]
    simp [Cutting.filled]

end Cutting.Shows

/-- **The pieces of a template are its cutting**, by induction on the rounds of the search. -/
theorem exists_cuts {fuel : Nat} {cs : List Char} (hfuel : cs.length ≤ fuel) :
    ∃ cutting, Cuts cs cutting ∧ cutting.Shows (piecesFrom fuel cs) := by
  induction fuel generalizing cs with
  | zero =>
    obtain rfl := List.length_eq_zero_iff.1 (Nat.le_zero.1 hfuel)
    exact ⟨_, .last (silent_nil []), .nil⟩
  | succ fuel ih =>
    cases cs with
    | nil => exact ⟨_, .last (silent_nil []), .nil⟩
    | cons c rest =>
      have hfuel : rest.length ≤ fuel := Nat.le_of_succ_le_succ hfuel
      obtain ⟨cutting, hcuts, hshows⟩ := ih hfuel
      have hplaceholder := placeholder?_cons c rest
      rw [piecesFrom]
      by_cases hc : c = '\x7b'
      · rw [if_pos hc] at hplaceholder ⊢
        cases hread : readHole? rest with
        | none => exact ⟨_, hcuts.push (hplaceholder.trans hread), hshows.push c⟩
        | some found =>
          obtain ⟨path, after⟩ := found
          obtain ⟨inner, hinner⟩ := suffix_of_readHole? hread
          have hafter : after.length ≤ fuel := by
            rw [← hinner, List.length_append] at hfuel
            omega
          obtain ⟨behind, hbehind, hshows⟩ := ih hafter
          have htext : (c :: inner) ++ after = c :: rest := by rw [List.cons_append, hinner]
          have hwritten := take_of_append htext
          rw [List.length_cons] at hwritten
          dsimp only
          rw [hwritten]
          have hmatch := hplaceholder.trans hread
          rw [← htext] at hmatch ⊢
          exact ⟨_, .slot (silent_nil _) hmatch hbehind, hshows.slot _ _⟩
      · rw [if_neg hc] at hplaceholder ⊢
        exact ⟨_, hcuts.push hplaceholder, hshows.push c⟩

/-- **Each placeholder is filled once, and nothing else is changed.** There is one way to cut a
template into literal text and placeholders, at which no placeholder starts anywhere else; it depends
on the template alone. The paths of its placeholders are those that are reported, in their order. In
every state the template is filled with one text in the place of each placeholder, which is read
off the state by its path and is not searched for placeholders, and with the literal text between
them as it is. A template without a placeholder is filled as it is written. -/
theorem fills_each_placeholder_once (template : String) :
    ∃ cutting : Cutting, Cuts template.toList cutting ∧
      (∀ other, Cuts template.toList other → other = cutting) ∧
      cutting.text = template.toList ∧
      placeholders template = cutting.slots.map Slot.path ∧
      (∀ fields : Fields, (render template fields).toList = cutting.filled fields) ∧
      (placeholders template = [] → ∀ fields : Fields, render template fields = template) := by
  obtain ⟨cutting, hcuts, hshows⟩ := exists_cuts (Nat.le_refl template.toList.length)
  have htext := hcuts.text_eq
  have hfilled (fields : Fields) : (render template fields).toList = cutting.filled fields := by
    rw [← hshows.filled fields, render]
    simp [pieces, String.toList_join, List.flatMap_map]
  refine ⟨cutting, hcuts, fun other hother => hcuts.unique hother, htext, hshows.paths, hfilled, ?_⟩
  intro hnone fields
  apply String.toList_inj.1
  have hslots : cutting.slots = [] := List.map_eq_nil_iff.1 (hshows.paths.symm.trans hnone)
  rw [hfilled, ← htext]
  simp [Cutting.filled, Cutting.text, hslots]

/-- A value that looks like a placeholder stays as it is, and so does a brace that opens none. -/
example : render "\x7b\x7b a \x7d, \x7b b" [("a", .text "\x7bb\x7d"), ("b", .text "x")] =
    "\x7bb\x7d, \x7b b" := by decide

end WorkflowGraph.Template
