import TypeSpelling.Peg.Ranked

/-!
# Matching, operator by operator

What a match of each operator consists of, stated as equivalences, so that one
lemma serves both for matching a given text and for taking a match apart.  A
repetition is described by the relation `Repeats`, which has no limit on the
number of its steps.
-/

namespace TypeSpelling.Peg

open TypeSpelling.Text

variable {R : Type}

/-! ## Beginnings of texts -/

/-- Nothing in a text passes the test at its beginning. -/
def StartsWithout (test : Char → Bool) (input : List Char) : Prop :=
  ∀ c ∈ input.head?, test c = false

theorem startsWithout_nil (test : Char → Bool) : StartsWithout test [] := by
  simp [StartsWithout]

@[simp]
theorem startsWithout_cons {test : Char → Bool} {c : Char} {rest : List Char} :
    StartsWithout test (c :: rest) ↔ test c = false := by
  simp [StartsWithout]

theorem StartsWithout.mono {test other : Char → Bool} {input : List Char}
    (stops : StartsWithout test input) (passes : ∀ c, other c = true → test c = true) :
    StartsWithout other input := by
  intro c head
  have fails := stops c head
  cases passesOther : other c with
  | false => rfl
  | true =>
      rw [passes c passesOther] at fails
      cases fails

theorem takeWhile_eq_nil {test : Char → Bool} {input : List Char}
    (stops : StartsWithout test input) : input.takeWhile test = [] := by
  cases input with
  | nil => rfl
  | cons c rest => rw [List.takeWhile_cons, startsWithout_cons.mp stops]; rfl

theorem dropWhile_eq_self {test : Char → Bool} {input : List Char}
    (stops : StartsWithout test input) : input.dropWhile test = input := by
  cases input with
  | nil => rfl
  | cons c rest => rw [List.dropWhile_cons, startsWithout_cons.mp stops]; rfl

theorem takeWhile_append_eq {test : Char → Bool} {run rest : List Char}
    (passes : ∀ c ∈ run, test c = true) (stops : StartsWithout test rest) :
    (run ++ rest).takeWhile test = run := by
  rw [List.takeWhile_append_of_pos passes, takeWhile_eq_nil stops, List.append_nil]

theorem dropWhile_append_eq {test : Char → Bool} {run rest : List Char}
    (passes : ∀ c ∈ run, test c = true) (stops : StartsWithout test rest) :
    (run ++ rest).dropWhile test = rest := by
  rw [List.dropWhile_append_of_pos passes, dropWhile_eq_self stops]

/-- A run of characters that pass a test ends in one place. -/
theorem append_inj_of_startsWithout {test : Char → Bool} {run rest run' rest' : List Char}
    (passes : ∀ c ∈ run, test c = true) (stops : StartsWithout test rest)
    (passes' : ∀ c ∈ run', test c = true) (stops' : StartsWithout test rest')
    (same : run ++ rest = run' ++ rest') : run = run' ∧ rest = rest' := by
  have taken := congrArg (List.takeWhile test) same
  have left := congrArg (List.dropWhile test) same
  rw [takeWhile_append_eq passes stops, takeWhile_append_eq passes' stops'] at taken
  rw [dropWhile_append_eq passes stops, dropWhile_append_eq passes' stops'] at left
  exact ⟨taken, left⟩

theorem startsWithout_dropWhile (test : Char → Bool) (input : List Char) :
    StartsWithout test (input.dropWhile test) := by
  induction input with
  | nil => exact startsWithout_nil test
  | cons c rest ih =>
      by_cases passes : test c = true
      · rwa [List.dropWhile_cons_of_pos passes]
      · rw [List.dropWhile_cons_of_neg passes, startsWithout_cons]
        exact Bool.not_eq_true _ ▸ passes

/-! ## Single operators -/

section

variable {isBlank : Char → Bool} {call : R → Matcher R}

theorem match?_seq_eq_some_iff {first second : Expr R} {position : Nat} {input : List Char}
    {found : Match R} :
    (Expr.seq first second).match? isBlank call position input = some found ↔
      ∃ left right, first.match? isBlank call position input = some left ∧
        second.match? isBlank call (position + utf8Length left.text) left.rest = some right ∧
        found = left.append right := by
  simp only [Expr.match?]
  cases first.match? isBlank call position input with
  | none => simp
  | some left =>
      simp only [Option.map_eq_some_iff, Option.some.injEq, exists_and_left, exists_eq_left']
      exact exists_congr fun right => and_congr_right fun _ => eq_comm

theorem match?_seq_eq_none_iff {first second : Expr R} {position : Nat} {input : List Char} :
    (Expr.seq first second).match? isBlank call position input = none ↔
      ∀ left, first.match? isBlank call position input = some left →
        second.match? isBlank call (position + utf8Length left.text) left.rest = none := by
  simp only [Expr.match?]
  cases first.match? isBlank call position input with
  | none => simp
  | some left => simp

theorem match?_choice_eq_some_iff {first second : Expr R} {position : Nat} {input : List Char}
    {found : Match R} :
    (Expr.choice first second).match? isBlank call position input = some found ↔
      first.match? isBlank call position input = some found ∨
        (first.match? isBlank call position input = none ∧
          second.match? isBlank call position input = some found) := by
  simp only [Expr.match?]
  cases first.match? isBlank call position input <;> simp

theorem match?_choice_eq_none_iff {first second : Expr R} {position : Nat} {input : List Char} :
    (Expr.choice first second).match? isBlank call position input = none ↔
      first.match? isBlank call position input = none ∧
        second.match? isBlank call position input = none := by
  simp only [Expr.match?]
  cases first.match? isBlank call position input <;> simp

theorem match?_optional_eq_some_iff {item : Expr R} {position : Nat} {input : List Char}
    {found : Match R} :
    (Expr.optional item).match? isBlank call position input = some found ↔
      item.match? isBlank call position input = some found ∨
        (item.match? isBlank call position input = none ∧ found = .empty input) := by
  simp only [Expr.match?]
  cases item.match? isBlank call position input <;> simp [eq_comm]

theorem match?_refuse_eq_some_iff {item : Expr R} {position : Nat} {input : List Char}
    {found : Match R} :
    (Expr.refuse item).match? isBlank call position input = some found ↔
      item.match? isBlank call position input = none ∧ found = .empty input := by
  simp only [Expr.match?]
  cases item.match? isBlank call position input <;> simp [eq_comm]

theorem match?_char_eq_some_iff {accepts : Char → Bool} {position : Nat} {input : List Char}
    {found : Match R} :
    (Expr.char accepts).match? isBlank call position input = some found ↔
      ∃ c rest, input = c :: rest ∧ accepts c = true ∧ found = ⟨[c], rest, []⟩ := by
  cases input with
  | nil => simp [Expr.match?]
  | cons c rest =>
      simp only [Expr.match?, List.cons.injEq]
      split
      · rename_i passes
        simp only [Option.some.injEq]
        constructor
        · rintro rfl
          exact ⟨c, rest, ⟨rfl, rfl⟩, passes, rfl⟩
        · rintro ⟨_, _, ⟨rfl, rfl⟩, -, rfl⟩
          rfl
      · rename_i fails
        simp only [reduceCtorEq, false_iff]
        rintro ⟨_, _, ⟨rfl, rfl⟩, passes, -⟩
        exact fails passes

theorem match?_char_eq_none {accepts : Char → Bool} {position : Nat} {input : List Char}
    (stops : StartsWithout accepts input) :
    (Expr.char accepts).match? isBlank call position input = none := by
  cases input with
  | nil => rfl
  | cons c rest =>
      simp only [Expr.match?, startsWithout_cons.mp stops, Bool.false_eq_true, if_false]

theorem dropExpected?_eq_some_iff {expected input rest : List Char} :
    dropExpected? expected input = some rest ↔ input = expected ++ rest := by
  constructor
  · exact fun dropped => (dropExpected?_append dropped).symm
  · rintro rfl
    induction expected with
    | nil => rfl
    | cons e expected ih => simpa [dropExpected?] using ih

theorem match?_text_eq_some_iff {expected : List Char} {position : Nat} {input : List Char}
    {found : Match R} :
    (Expr.text expected).match? isBlank call position input = some found ↔
      ∃ rest, input = expected ++ rest ∧ found = ⟨expected, rest, []⟩ := by
  simp only [Expr.match?, Option.map_eq_some_iff, dropExpected?_eq_some_iff]
  exact exists_congr fun rest => and_congr_right fun _ => eq_comm

theorem match?_text_append (expected rest : List Char) (position : Nat) :
    (Expr.text expected).match? isBlank call position (expected ++ rest) =
      some ⟨expected, rest, []⟩ :=
  match?_text_eq_some_iff.mpr ⟨rest, rfl, rfl⟩

theorem match?_skip_append {blanks rest : List Char} (blank : ∀ c ∈ blanks, isBlank c = true)
    (stops : StartsWithout isBlank rest) (position : Nat) :
    (Expr.skip : Expr R).match? isBlank call position (blanks ++ rest) =
      some ⟨blanks, rest, []⟩ := by
  simp only [Expr.match?, takeWhile_append_eq blank stops, dropWhile_append_eq blank stops]

/-! ## Parts in a row -/

@[simp]
theorem spaced_singleton (part : Expr R) : Expr.spaced [part] = part := rfl

/-- A part, the blanks behind it and the other parts make a match of them all. -/
theorem match?_spaced_cons_eq_some_iff {part second : Expr R} {others : List (Expr R)}
    {position : Nat} {input : List Char} {found : Match R} :
    (Expr.spaced (part :: second :: others)).match? isBlank call position input = some found ↔
      ∃ left right, part.match? isBlank call position input = some left ∧
        (Expr.spaced (second :: others)).match? isBlank call
          (position + utf8Length left.text + utf8Length (left.rest.takeWhile isBlank))
          (left.rest.dropWhile isBlank) = some right ∧
        found = ⟨left.text ++ (left.rest.takeWhile isBlank ++ right.text), right.rest,
          left.nodes ++ right.nodes⟩ := by
  rw [Expr.spaced]
  · simp only [match?_seq_eq_some_iff]
    constructor
    · rintro ⟨left, _, leftMatched, ⟨skipped, right, skips, rightMatched, rfl⟩, rfl⟩
      cases skips
      exact ⟨left, right, leftMatched, rightMatched, rfl⟩
    · rintro ⟨left, right, leftMatched, rightMatched, rfl⟩
      exact ⟨left, _, leftMatched, ⟨_, right, rfl, rightMatched, rfl⟩, rfl⟩
  · simp

/-- Matching a part, passing the blanks behind it and matching the other parts. -/
theorem match?_spaced_cons {part second : Expr R} {others : List (Expr R)} {position : Nat}
    {input text blanks rest rest' text' : List Char} {nodes nodes' : List (Node R)}
    (matched : part.match? isBlank call position input = some ⟨text, blanks ++ rest, nodes⟩)
    (blank : ∀ c ∈ blanks, isBlank c = true) (stops : StartsWithout isBlank rest)
    (others_matched : (Expr.spaced (second :: others)).match? isBlank call
      (position + utf8Length text + utf8Length blanks) rest = some ⟨text', rest', nodes'⟩) :
    (Expr.spaced (part :: second :: others)).match? isBlank call position input =
      some ⟨text ++ (blanks ++ text'), rest', nodes ++ nodes'⟩ := by
  refine match?_spaced_cons_eq_some_iff.mpr ⟨_, ⟨text', rest', nodes'⟩, matched, ?_, ?_⟩
  · simpa only [takeWhile_append_eq blank stops, dropWhile_append_eq blank stops]
      using others_matched
  · simp only [takeWhile_append_eq blank stops]

theorem match?_spaced_cons_eq_none {part second : Expr R} {others : List (Expr R)}
    {position : Nat} {input : List Char}
    (fails : part.match? isBlank call position input = none) :
    (Expr.spaced (part :: second :: others)).match? isBlank call position input = none := by
  apply Option.eq_none_iff_forall_ne_some.mpr
  intro found matched
  obtain ⟨left, right, leftMatched, -⟩ := match?_spaced_cons_eq_some_iff.mp matched
  rw [fails] at leftMatched
  cases leftMatched

end

/-! ## Choices -/

section

variable {isBlank : Char → Bool} {call : R → Matcher R}

/-- What a choice takes one of its alternatives takes. -/
theorem exists_of_match?_firstOf {alternatives : List (Expr R)} {position : Nat}
    {input : List Char} {found : Match R}
    (matched : (Expr.firstOf alternatives).match? isBlank call position input = some found) :
    ∃ alternative ∈ alternatives,
      alternative.match? isBlank call position input = some found := by
  induction alternatives with
  | nil => simp [Expr.firstOf, Expr.match?, dropExpected?] at matched
  | cons first others ih =>
      cases others with
      | nil => exact ⟨first, List.mem_cons_self .., matched⟩
      | cons second others =>
          rcases match?_choice_eq_some_iff.mp matched with here | ⟨-, later⟩
          · exact ⟨first, List.mem_cons_self .., here⟩
          · obtain ⟨alternative, mem, found⟩ := ih later
            exact ⟨alternative, List.mem_cons_of_mem _ mem, found⟩

/-- A choice takes what the first alternative takes that does not fail. -/
theorem match?_firstOf_append {before after : List (Expr R)} {alternative : Expr R}
    {position : Nat} {input : List Char} {found : Match R}
    (fail : ∀ other ∈ before, other.match? isBlank call position input = none)
    (matched : alternative.match? isBlank call position input = some found) :
    (Expr.firstOf (before ++ alternative :: after)).match? isBlank call position input =
      some found := by
  induction before with
  | nil =>
      cases after with
      | nil => exact matched
      | cons second after => exact match?_choice_eq_some_iff.mpr (.inl matched)
  | cons first others ih =>
      rw [List.forall_mem_cons] at fail
      have later := ih fail.2
      cases others with
      | nil => exact match?_choice_eq_some_iff.mpr (.inr ⟨fail.1, later⟩)
      | cons second others => exact match?_choice_eq_some_iff.mpr (.inr ⟨fail.1, later⟩)

/-- A choice of rules takes what the first rule takes that does not fail. -/
theorem match?_firstOf_calls [DecidableEq R] {rules : List R} {rule : R} (mem : rule ∈ rules)
    {position : Nat} {input : List Char} {found : Match R}
    (fail : ∀ other ∈ rules.takeWhile (· ≠ rule), call other position input = none)
    (matched : call rule position input = some found) :
    (Expr.firstOf (rules.map .call)).match? isBlank call position input = some found := by
  obtain ⟨later, tail⟩ : ∃ later, rules.dropWhile (· ≠ rule) = rule :: later := by
    induction rules with
    | nil => cases mem
    | cons first others ih =>
        by_cases here : first = rule
        · exact ⟨others, by simp [here]⟩
        · have inOthers := (List.mem_cons.mp mem).resolve_left (Ne.symm here)
          have skips : (first :: others).takeWhile (· ≠ rule) =
              first :: others.takeWhile (· ≠ rule) := by simp [here]
          rw [skips, List.forall_mem_cons] at fail
          obtain ⟨later, tail⟩ := ih inOthers fail.2
          exact ⟨later, by simpa [here] using tail⟩
  rw [← List.takeWhile_append_dropWhile (p := (· ≠ rule)) (l := rules), tail, List.map_append,
    List.map_cons]
  refine match?_firstOf_append (fun other otherMem => ?_) matched
  obtain ⟨before, beforeMem, rfl⟩ := List.mem_map.mp otherMem
  exact fail before beforeMem

end

/-! ## Repetitions -/

/-- A match that takes something. -/
def Progress (item : Matcher R) : Prop :=
  ∀ position input found, item position input = some found →
    found.Splits input ∧ found.text ≠ []

/-- The item matches again and again until it fails. -/
inductive Repeats (item : Matcher R) : Nat → List Char → Match R → Prop where
  | stop {position : Nat} {input : List Char} (fails : item position input = none) :
      Repeats item position input (.empty input)
  | step {position : Nat} {input : List Char} {first others : Match R}
      (matched : item position input = some first)
      (repeats : Repeats item (position + utf8Length first.text) first.rest others) :
      Repeats item position input (first.append others)

/-- A limit above the length of the text lets a repetition run to its end. -/
theorem repeatMatch_eq_of_repeats {item : Matcher R} (progress : Progress item)
    {position : Nat} {input : List Char} {found : Match R}
    (repeats : Repeats item position input found) :
    ∀ limit, input.length < limit → repeatMatch item limit position input = found := by
  induction repeats with
  | stop fails =>
      intro limit enough
      cases limit with
      | zero => cases enough
      | succ limit => rw [repeatMatch, fails]
  | @step position input first others matched repeats ih =>
      intro limit enough
      obtain ⟨splits, taken⟩ := progress position input first matched
      have shorter := splits.length_rest_lt taken
      cases limit with
      | zero => cases enough
      | succ limit =>
          have nonempty : first.text.isEmpty = false := by simpa using taken
          rw [repeatMatch, matched]
          simp only [nonempty, Bool.false_eq_true, if_false]
          rw [ih limit (by omega)]

theorem exists_repeats {item : Matcher R} (progress : Progress item) (position : Nat)
    (input : List Char) : ∃ found, Repeats item position input found := by
  induction length : input.length using Nat.strongRecOn generalizing position input with
  | ind n ih =>
      cases matched : item position input with
      | none => exact ⟨_, .stop matched⟩
      | some first =>
          obtain ⟨splits, taken⟩ := progress position input first matched
          have shorter := splits.length_rest_lt taken
          obtain ⟨others, repeats⟩ := ih _ (by omega) (position + utf8Length first.text)
            first.rest rfl
          exact ⟨_, .step matched repeats⟩

section

variable {isBlank : Char → Bool} {call : R → Matcher R}

theorem match?_repeated_eq_some_iff {item : Expr R}
    (progress : Progress (item.match? isBlank call)) {position : Nat} {input : List Char}
    {found : Match R} :
    (Expr.repeated item).match? isBlank call position input = some found ↔
      Repeats (item.match? isBlank call) position input found := by
  have enough := Nat.lt_succ_self input.length
  constructor
  · intro matched
    obtain ⟨others, repeats⟩ := exists_repeats progress position input
    have same := repeatMatch_eq_of_repeats progress repeats _ enough
    simp only [Expr.match?, Option.some.injEq] at matched
    rw [← matched, same]
    exact repeats
  · intro repeats
    simp only [Expr.match?, repeatMatch_eq_of_repeats progress repeats _ enough]

/-- A repetition passes the blanks in front of every occurrence but the first. -/
theorem match?_many_eq_some_iff {item : Expr R}
    (progress : Progress ((Expr.seq .skip item).match? isBlank call)) {position : Nat}
    {input : List Char} {found : Match R} :
    (Expr.many item).match? isBlank call position input = some found ↔
      (item.match? isBlank call position input = none ∧ found = .empty input) ∨
        ∃ first others, item.match? isBlank call position input = some first ∧
          Repeats ((Expr.seq .skip item).match? isBlank call)
            (position + utf8Length first.text) first.rest others ∧
          found = first.append others := by
  simp only [Expr.many, match?_optional_eq_some_iff, match?_seq_eq_some_iff,
    match?_seq_eq_none_iff, match?_repeated_eq_some_iff progress]
  constructor
  · rintro (⟨first, others, matched, repeats, rfl⟩ | ⟨fails, rfl⟩)
    · exact .inr ⟨first, others, matched, repeats, rfl⟩
    · refine .inl ⟨Option.eq_none_iff_forall_ne_some.mpr fun first matched => ?_, rfl⟩
      have impossible := fails first matched
      simp [Expr.match?] at impossible
  · rintro (⟨fails, rfl⟩ | ⟨first, others, matched, repeats, rfl⟩)
    · refine .inr ⟨fun first matched => ?_, rfl⟩
      rw [fails] at matched
      cases matched
    · exact .inl ⟨first, others, matched, repeats, rfl⟩

theorem match?_skip_seq {item : Expr R} {blanks rest text rest' : List Char} {position : Nat}
    {nodes : List (Node R)} (blank : ∀ c ∈ blanks, isBlank c = true)
    (stops : StartsWithout isBlank rest)
    (matched : item.match? isBlank call (position + utf8Length blanks) rest =
      some ⟨text, rest', nodes⟩) :
    (Expr.seq .skip item).match? isBlank call position (blanks ++ rest) =
      some ⟨blanks ++ text, rest', nodes⟩ :=
  match?_seq_eq_some_iff.mpr ⟨_, _, match?_skip_append blank stops position, matched, rfl⟩

/-- Where no blanks come first, every occurrence may be taken to pass blanks. -/
theorem match?_many_of_repeats {item : Expr R}
    (progress : Progress ((Expr.seq .skip item).match? isBlank call)) {position : Nat}
    {input : List Char} {found : Match R} (stops : StartsWithout isBlank input)
    (repeats : Repeats ((Expr.seq .skip item).match? isBlank call) position input found) :
    (Expr.many item).match? isBlank call position input = some found := by
  have skips : (Expr.seq .skip item).match? isBlank call position input =
      item.match? isBlank call position input := by
    simp only [Expr.match?, takeWhile_eq_nil stops, dropWhile_eq_self stops, utf8Length_nil,
      Nat.add_zero]
    cases item.match? isBlank call position input <;> rfl
  rw [match?_many_eq_some_iff progress]
  cases repeats with
  | stop fails => exact .inl ⟨skips ▸ fails, rfl⟩
  | step matched repeats => exact .inr ⟨_, _, skips ▸ matched, repeats, rfl⟩

end

end TypeSpelling.Peg
