import Interbellum.Text.Json

/-!
# Writing JSON

A `Style` is how strings and numbers are written, so that they are read back as they were, and
which blanks stand between the parts. Not every number has a text in every style.

* `Style.parseValue_write`: a document is read back, whatever follows it.
-/

namespace Interbellum.JsonText

open Utf16 (Text unit)

/-! ## Strings -/

/-- The ways to write one unit of a string. -/
inductive Written : UInt16 → Text → Prop
  | plain {u : UInt16} (hquote : u ≠ unit '"') (hcontrol : ¬ u < 32) (hescape : u ≠ unit '\\') :
    Written u [u]
  | escape {u e : UInt16} (hu : e ≠ unit 'u') (h : escaped e = some u) :
    Written u [unit '\\', e]
  | hex {u a b c d : UInt16} (h : hexUnit a b c d = some u) :
    Written u [unit '\\', unit 'u', a, b, c, d]

inductive WrittenAs : Text → Text → Prop
  | nil : WrittenAs [] []
  | cons {u : UInt16} {w t q : Text} (hu : Written u w) (h : WrittenAs t q) :
    WrittenAs (u :: t) (w ++ q)

theorem parseString_cons {u : UInt16} {w rest : Text} (h : Written u w) :
    parseString (w ++ rest) = (parseString rest).map (consUnit u) := by
  cases h with
  | plain hquote hcontrol hescape =>
    rw [List.singleton_append, parseString.eq_def]
    dsimp only
    rw [if_neg hquote, if_neg hcontrol, if_neg hescape]
  | escape hu h =>
    rw [List.cons_append, List.singleton_append, parseString.eq_def]
    dsimp only
    rw [if_neg (by decide), if_neg (by decide), if_pos rfl, if_neg hu, h]
  | hex h =>
    simp only [List.cons_append, List.nil_append]
    rw [parseString.eq_def]
    dsimp only
    rw [if_neg (by decide), if_neg (by decide), if_pos rfl, if_pos rfl, h]

/-- A string is read back in whatever way it is written. -/
theorem WrittenAs.parseString {t q : Text} (h : WrittenAs t q) (rest : Text) :
    parseString (q ++ unit '"' :: rest) = .ok (t, rest) := by
  induction h with
  | nil =>
    rw [List.nil_append, parseString.eq_def]
    rfl
  | cons hu _ ih =>
    rw [List.append_assoc, parseString_cons hu, ih]
    rfl

/-- A unit as four lower-case hexadecimal digits after `\u`. -/
def hexEscape (u : UInt16) : Text :=
  [unit '\\', unit 'u'] ++ ([u.toNat / 4096, u.toNat / 256 % 16, u.toNat / 16 % 16, u.toNat % 16].map
    fun d => unit (Nat.digitChar d))

theorem hexDigit_digitChar : ∀ d < 16, hexDigit (unit (Nat.digitChar d)) = some d := by decide

theorem written_hexEscape (u : UInt16) : Written u (hexEscape u) := by
  have hu : u.toNat < 65536 := u.toNat_lt
  apply Written.hex
  rw [hexUnit, hexDigit_digitChar _ (by omega), hexDigit_digitChar _ (by omega),
    hexDigit_digitChar _ (by omega), hexDigit_digitChar _ (by omega)]
  have hsum : 256 * (16 * (u.toNat / 4096) + u.toNat / 256 % 16) +
      (16 * (u.toNat / 16 % 16) + u.toNat % 16) = u.toNat := by omega
  show some (Nat.toUInt16 _) = some u
  rw [hsum]
  exact congrArg some UInt16.ofNat_toNat

/-! ## Numbers -/

/-- A number cannot go on here. -/
def Ends (rest : Text) : Prop :=
  ∀ u ∈ rest.head?, isDigit u = false ∧ u ≠ unit '.' ∧ u ≠ unit 'e' ∧ u ≠ unit 'E'

theorem ends_nil : Ends [] := nofun

/-- A text that does not go on with a digit. -/
def NoDigit (rest : Text) : Prop := ∀ u ∈ rest.head?, isDigit u = false

theorem Ends.noDigit {rest : Text} (h : Ends rest) : NoDigit rest := fun u hu => (h u hu).1

theorem takeWhile_digits {digits rest : Text} (hdigits : ∀ u ∈ digits, isDigit u = true)
    (hrest : NoDigit rest) :
    (digits ++ rest).takeWhile isDigit = digits ∧ (digits ++ rest).dropWhile isDigit = rest := by
  have hnil : rest.takeWhile isDigit = [] ∧ rest.dropWhile isDigit = rest := by
    cases rest with
    | nil => exact ⟨rfl, rfl⟩
    | cons u tail =>
      have hu := hrest u rfl
      exact ⟨List.takeWhile_cons_of_neg (by simp [hu]), List.dropWhile_cons_of_neg (by simp [hu])⟩
  rw [List.takeWhile_append_of_pos hdigits, List.dropWhile_append_of_pos hdigits, hnil.1, hnil.2,
    List.append_nil]
  exact ⟨rfl, rfl⟩

theorem parseDigits_append {digits rest : Text} (hne : digits ≠ [])
    (hdigits : ∀ u ∈ digits, isDigit u = true) (hrest : NoDigit rest) :
    parseDigits (digits ++ rest) = .ok (digits, rest) := by
  obtain ⟨htake, hdrop⟩ := takeWhile_digits hdigits hrest
  rw [parseDigits, htake, hdrop, if_neg hne]

theorem parseFraction_digits {digits rest : Text} (hne : digits ≠ [])
    (hdigits : ∀ u ∈ digits, isDigit u = true) (hrest : NoDigit rest) :
    parseFraction (unit '.' :: digits ++ rest) = .ok (digits, rest) := by
  rw [parseFraction, List.cons_append, List.head?_cons, if_pos rfl, List.tail_cons]
  exact parseDigits_append hne hdigits hrest

theorem parseFraction_none {rest : Text} (h : rest.head? ≠ some (unit '.')) :
    parseFraction rest = .ok ([], rest) := if_neg h

theorem parseExponent_none {rest : Text} (h : Ends rest) : parseExponent rest = .ok (none, rest) := by
  refine if_neg ?_
  rintro (he | he)
  · exact (h _ he).2.2.1 rfl
  · exact (h _ he).2.2.2 rfl

/-- A number is read part by part. -/
theorem parseNumber_parts {negative : Bool} {whole fraction tail tail' rest : Text}
    {exponent : Option ℤ} (hhead : whole.head? ≠ some (unit '-')) (hne : whole ≠ [])
    (hwhole : parseWhole (whole ++ tail) = .ok (whole, tail))
    (hfraction : parseFraction tail = .ok (fraction, tail'))
    (hexponent : parseExponent tail' = .ok (exponent, rest)) :
    parseNumber ((if negative then [unit '-'] else []) ++ (whole ++ tail)) =
      .ok (.num (numberValue negative whole fraction (exponent.getD 0))
        (fraction.isEmpty && exponent.isNone), rest) := by
  have hplain : (whole ++ tail).head? ≠ some (unit '-') := by
    rwa [List.head?_append_of_ne_nil _ hne]
  cases negative with
  | false =>
    simp only [parseNumber, Bool.false_eq_true, if_false, List.nil_append, hplain, decide_false,
      hwhole, hfraction, hexponent, bind, Except.bind, pure, Except.pure]
  | true =>
    simp only [parseNumber, if_true, List.singleton_append, List.head?_cons, decide_true,
      List.tail_cons, hwhole, hfraction, hexponent, bind, Except.bind, pure, Except.pure]

theorem head_digits {digits : Text} (h : ∀ u ∈ digits, isDigit u = true) {w : UInt16}
    (hw : isDigit w = false) : digits.head? ≠ some w := by
  intro hhead
  rw [h w (List.mem_of_mem_head? hhead)] at hw
  cases hw

/-! ## Blanks -/

/-- White space between the parts of a document. -/
def Blank (b : Text) : Prop := ∀ u ∈ b, u ∈ [unit ' ', unit '\t', unit '\n', unit '\r']

theorem skipBlanks_append {b : Text} (hb : Blank b) (t : Text) :
    skipBlanks (b ++ t) = skipBlanks t :=
  List.dropWhile_append_of_pos fun u hu => decide_eq_true (hb u hu)

theorem skipBlanks_cons {u : UInt16} {tail : Text}
    (h : u ∉ [unit ' ', unit '\t', unit '\n', unit '\r']) : skipBlanks (u :: tail) = u :: tail :=
  List.dropWhile_cons_of_neg (by rwa [decide_eq_true_eq])

theorem parseValue_append {b t : Text} {fuel : ℕ} {room : Option ℕ} (hb : Blank b)
    (hfuel : 0 < fuel) : parseValue fuel room (b ++ t) = parseValue fuel room t := by
  obtain ⟨fuel, rfl⟩ : ∃ m, fuel = m + 1 := ⟨fuel - 1, by omega⟩
  rw [parseValue, parseValue, skipBlanks_append hb]

/-- White space ends a number. -/
theorem ends_append {b rest : Text} (hb : Blank b) (hrest : Ends rest) : Ends (b ++ rest) := by
  cases b with
  | nil => exact hrest
  | cons u tail =>
    intro w hw
    obtain rfl : u = w := Option.some.inj hw
    have hblank := hb u List.mem_cons_self
    simp only [List.mem_cons, List.not_mem_nil, or_false] at hblank
    rcases hblank with rfl | rfl | rfl | rfl <;> decide

/-! ## Documents -/

structure Style where
  /-- a string, without the quotes -/
  string : Text → Text
  number : Rat → Bool → Text
  Writes : Rat → Bool → Prop
  /-- what stands before an item or a member, so deep -/
  gap : ℕ → Text
  /-- what stands after a colon -/
  pad : Text
  parseString_string (t rest : Text) : parseString (string t ++ unit '"' :: rest) = .ok (t, rest)
  head_number {q : Rat} {plain : Bool} (h : Writes q plain) :
    ∃ u digits, number q plain = u :: digits ∧ (u = unit '-' ∨ isDigit u = true)
  parseNumber_number {q : Rat} {plain : Bool} {rest : Text} (h : Writes q plain)
    (hrest : Ends rest) : parseNumber (number q plain ++ rest) = .ok (.num q plain, rest)
  blank_gap (n : ℕ) : Blank (gap n)
  blank_pad : Blank pad

namespace Style

variable (S : Style)

mutual

/-- Write the document `n` levels deep, and then the rest. -/
def write (n : ℕ) : Doc → Text → Text
  | .null, rest => .ofString "null" ++ rest
  | .bool true, rest => .ofString "true" ++ rest
  | .bool false, rest => .ofString "false" ++ rest
  | .num q plain, rest => S.number q plain ++ rest
  | .str t, rest => unit '"' :: (S.string t ++ unit '"' :: rest)
  | .arr [], rest => unit '[' :: unit ']' :: rest
  | .arr (d :: items), rest => unit '[' :: (S.gap (n + 1) ++
      write (n + 1) d (writeItems (n + 1) items (S.gap n ++ unit ']' :: rest)))
  | .obj [], rest => unit '{' :: unit '}' :: rest
  | .obj ((k, d) :: members), rest =>
    unit '{' :: (S.gap (n + 1) ++ unit '"' :: (S.string k ++ unit '"' :: unit ':' ::
      (S.pad ++ write (n + 1) d (writeMembers (n + 1) members (S.gap n ++ unit '}' :: rest)))))

/-- The items after the first one. -/
def writeItems (n : ℕ) : List Doc → Text → Text
  | [], rest => rest
  | d :: items, rest => unit ',' :: (S.gap n ++ write n d (writeItems n items rest))

def writeMembers (n : ℕ) : List (Text × Doc) → Text → Text
  | [], rest => rest
  | (k, d) :: members, rest =>
    unit ',' :: (S.gap n ++ unit '"' :: (S.string k ++ unit '"' :: unit ':' ::
      (S.pad ++ write n d (writeMembers n members rest))))

end

def print (d : Doc) : Text := S.write 0 d []

mutual

/-- All numbers of the document can be written. -/
def Prints : Doc → Prop
  | .num q plain => S.Writes q plain
  | .arr items => PrintsItems items
  | .obj members => PrintsMembers members
  | .null | .bool _ | .str _ => True

def PrintsItems : List Doc → Prop
  | [] => True
  | d :: rest => Prints d ∧ PrintsItems rest

def PrintsMembers : List (Text × Doc) → Prop
  | [] => True
  | (_, d) :: rest => Prints d ∧ PrintsMembers rest

end

variable {S}

/-- A number starts like no other value. -/
theorem number_ne {u w : UInt16} (hu : u = unit '-' ∨ isDigit u = true) (hw : isDigit w = false)
    (hminus : w ≠ unit '-') : u ≠ w := by
  rintro rfl
  rcases hu with rfl | hu
  · exact hminus rfl
  · rw [hw] at hu
    cases hu

theorem parseValue_scalar {u : UInt16} {tail : Text} {fuel : ℕ} {room : Option ℕ}
    (hblank : u ∉ [unit ' ', unit '\t', unit '\n', unit '\r']) (hbrace : u ≠ unit '{')
    (hbracket : u ≠ unit '[') :
    parseValue (fuel + 1) room (u :: tail) = parseScalar (u :: tail) := by
  rw [parseValue]
  simp only [skipBlanks_cons hblank, List.head?_cons, Option.some.injEq, hbrace, hbracket, or_self,
    if_false]

theorem parseValue_number {q : Rat} {plain : Bool} {fuel : ℕ} {room : Option ℕ} {rest : Text}
    (h : S.Writes q plain) (hrest : Ends rest) :
    parseValue (fuel + 1) room (S.number q plain ++ rest) = .ok (.num q plain, rest) := by
  rw [← S.parseNumber_number h hrest]
  obtain ⟨u, digits, hnumber, hu⟩ := S.head_number h
  rw [hnumber, List.cons_append, parseValue_scalar, parseScalar]
  · simp only [List.head?_cons, Option.some.injEq, number_ne hu (w := unit '"') rfl (by decide),
      number_ne hu (w := unit 't') rfl (by decide), number_ne hu (w := unit 'f') rfl (by decide),
      number_ne hu (w := unit 'n') rfl (by decide), if_false]
  · simp only [List.mem_cons, List.not_mem_nil, or_false, not_or]
    exact ⟨number_ne hu rfl (by decide), number_ne hu rfl (by decide),
      number_ne hu rfl (by decide), number_ne hu rfl (by decide)⟩
  · exact number_ne hu rfl (by decide)
  · exact number_ne hu rfl (by decide)

theorem parseValue_string {fuel : ℕ} {room : Option ℕ} {t rest : Text} :
    parseValue (fuel + 1) room (unit '"' :: (S.string t ++ unit '"' :: rest)) =
      .ok (.str t, rest) := by
  rw [parseValue_scalar (by decide) (by decide) (by decide), parseScalar, List.head?_cons,
    if_pos rfl, List.tail_cons, S.parseString_string]
  rfl

theorem parseName_string {b : Text} (hb : Blank b) (k : Text) (rest : Text) :
    parseName (b ++ unit '"' :: (S.string k ++ unit '"' :: unit ':' :: rest)) = .ok (k, rest) := by
  have hskip : ∀ tail, skipBlanks (b ++ unit '"' :: tail) = unit '"' :: tail := fun _ =>
    skipBlanks_append hb _
  rw [parseName, hskip, List.head?_cons, if_pos rfl, List.tail_cons, S.parseString_string]
  rfl

/-- What follows an item or a member is no part of it. -/
theorem ends_cons {u : UInt16} {rest : Text}
    (h : isDigit u = false ∧ u ≠ unit '.' ∧ u ≠ unit 'e' ∧ u ≠ unit 'E') : Ends (u :: rest) := by
  intro w hw
  obtain rfl := Option.some.inj hw
  exact h

/-- A document starts with what a value can start with. -/
theorem head_write {n : ℕ} {d : Doc} (rest : Text) (h : S.Prints d) :
    ∃ u tail, S.write n d rest = u :: tail ∧ skipBlanks (u :: tail) = u :: tail ∧ u ≠ unit ']' := by
  unfold write
  split
  · exact ⟨_, _, rfl, skipBlanks_cons (by decide), by decide⟩
  · exact ⟨_, _, rfl, skipBlanks_cons (by decide), by decide⟩
  · exact ⟨_, _, rfl, skipBlanks_cons (by decide), by decide⟩
  · obtain ⟨u, digits, hnumber, hu⟩ := S.head_number h
    rw [hnumber]
    refine ⟨_, _, rfl, skipBlanks_cons ?_, number_ne hu rfl (by decide)⟩
    simp only [List.mem_cons, List.not_mem_nil, or_false, not_or]
    exact ⟨number_ne hu rfl (by decide), number_ne hu rfl (by decide),
      number_ne hu rfl (by decide), number_ne hu rfl (by decide)⟩
  all_goals exact ⟨_, _, rfl, skipBlanks_cons (by decide), by decide⟩

theorem ends_writeItems (n m : ℕ) (items : List Doc) (rest : Text) :
    Ends (S.writeItems n items (S.gap m ++ unit ']' :: rest)) := by
  cases items with
  | nil => exact ends_append (S.blank_gap m) (ends_cons (by decide))
  | cons d items => exact ends_cons (by decide)

theorem ends_writeMembers (n m : ℕ) (members : List (Text × Doc)) (rest : Text) :
    Ends (S.writeMembers n members (S.gap m ++ unit '}' :: rest)) := by
  cases members with
  | nil => exact ends_append (S.blank_gap m) (ends_cons (by decide))
  | cons member members => exact ends_cons (by decide)

mutual

/-- A document is read back, whatever follows it. -/
theorem parseValue_write : ∀ (d : Doc) (fuel n : ℕ) (rest : Text), S.Prints d → Ends rest →
    2 * (S.write n d rest).length + 1 ≤ fuel →
      parseValue fuel none (S.write n d rest) = .ok (d, rest)
  | .null, fuel + 1, n, rest, _, _, _ => by
    rw [parseValue, write]
    rfl
  | .bool true, fuel + 1, n, rest, _, _, _ => by
    rw [parseValue, write]
    rfl
  | .bool false, fuel + 1, n, rest, _, _, _ => by
    rw [parseValue, write]
    rfl
  | .num q plain, fuel + 1, n, rest, hprints, hrest, _ => by
    rw [write]
    exact parseValue_number hprints hrest
  | .str t, fuel + 1, n, rest, _, _, _ => by
    rw [write]
    exact parseValue_string
  | .arr [], fuel + 1, n, rest, _, _, _ => by
    rw [parseValue, write]
    rfl
  | .arr (d :: items), fuel + 1, n, rest, hprints, _, hfuel => by
    rw [write, List.length_cons, List.length_append] at hfuel
    obtain ⟨u, tail, hwrite, hskip, hu⟩ :=
      S.head_write (n := n + 1) (S.writeItems (n + 1) items (S.gap n ++ unit ']' :: rest)) hprints.1
    have hopen : ∀ tail, skipBlanks (unit '[' :: tail) = unit '[' :: tail := fun _ => rfl
    have hitems := parseItems_write items [] d fuel (n + 1) n [] rest nofun hprints
      (by rw [List.nil_append]; omega)
    rw [List.nil_append, hwrite] at hitems
    rw [parseValue, write, hwrite]
    simp only [hopen, skipBlanks_append (S.blank_gap (n + 1)), hskip, List.head?_cons,
      List.tail_cons, Option.some.injEq, hu, or_true, if_true, if_false, reduceCtorEq,
      Option.map_none, hitems]
    rfl
  | .obj [], fuel + 1, n, rest, _, _, _ => by
    rw [parseValue, write]
    rfl
  | .obj ((k, d) :: members), fuel + 1, n, rest, hprints, _, hfuel => by
    rw [write, List.length_cons, List.length_append] at hfuel
    have hopen : ∀ tail, skipBlanks (unit '{' :: tail) = unit '{' :: tail := fun _ => rfl
    have hquote : ∀ tail, skipBlanks (unit '"' :: tail) = unit '"' :: tail := fun _ => rfl
    have hmembers := parseMembers_write members [] k d fuel (n + 1) n [] rest nofun hprints
      (by rw [List.nil_append]; omega)
    rw [List.nil_append] at hmembers
    rw [parseValue, write]
    simp only [hopen, skipBlanks_append (S.blank_gap (n + 1)), hquote, List.head?_cons,
      List.tail_cons, true_or, if_true, reduceCtorEq, if_false, Option.map_none, hmembers]
    rfl
termination_by structural _ fuel => fuel

theorem parseItems_write : ∀ (items done : List Doc) (d : Doc) (fuel n m : ℕ) (b rest : Text),
    Blank b → S.PrintsItems (d :: items) →
    2 * (b ++ S.write n d (S.writeItems n items (S.gap m ++ unit ']' :: rest))).length + 2 ≤ fuel →
      parseItems fuel none done
        (b ++ S.write n d (S.writeItems n items (S.gap m ++ unit ']' :: rest))) =
          .ok (.arr (done ++ d :: items), rest)
  | [], done, d, fuel + 1, n, m, b, rest, hb, hprints, hfuel => by
    rw [List.length_append] at hfuel
    have hclose : skipBlanks (S.writeItems n [] (S.gap m ++ unit ']' :: rest)) = unit ']' :: rest :=
      skipBlanks_append (S.blank_gap m) _
    rw [parseItems, parseValue_append hb (by omega),
      parseValue_write d fuel n _ hprints.1 (ends_writeItems _ _ _ _) (by omega)]
    simp only [bind, Except.bind, hclose]
    rfl
  | d' :: items, done, d, fuel + 1, n, m, b, rest, hb, hprints, hfuel => by
    rw [List.length_append] at hfuel
    have hd : parseValue fuel none (S.write n d (S.writeItems n (d' :: items)
        (S.gap m ++ unit ']' :: rest))) = _ :=
      parseValue_write d fuel n _ hprints.1 (ends_writeItems _ _ _ _) (by omega)
    have hlength := (length_of_parseValue _).1 _ _ _ _ hd
    rw [parseItems, parseValue_append hb (by omega), hd]
    show parseItems fuel none (done ++ [d])
      (S.gap n ++ S.write n d' (S.writeItems n items (S.gap m ++ unit ']' :: rest))) = _
    rw [writeItems] at hfuel
    rw [writeItems, List.length_cons] at hlength
    rw [parseItems_write items (done ++ [d]) d' fuel n m _ rest (S.blank_gap n) hprints.2
      (by omega), List.append_assoc]
    rfl
termination_by structural _ _ _ fuel => fuel

theorem parseMembers_write : ∀ (members done : List (Text × Doc)) (k : Text) (d : Doc)
    (fuel n m : ℕ) (b rest : Text), Blank b → S.PrintsMembers ((k, d) :: members) →
    2 * (b ++ unit '"' :: (S.string k ++ unit '"' :: unit ':' :: (S.pad ++
      S.write n d (S.writeMembers n members (S.gap m ++ unit '}' :: rest))))).length + 2 ≤ fuel →
      parseMembers fuel none done (b ++ unit '"' :: (S.string k ++ unit '"' :: unit ':' :: (S.pad ++
        S.write n d (S.writeMembers n members (S.gap m ++ unit '}' :: rest))))) =
          .ok (.obj (done ++ (k, d) :: members), rest)
  | [], done, k, d, fuel + 1, n, m, b, rest, hb, hprints, hfuel => by
    simp only [List.length_cons, List.length_append] at hfuel
    rw [parseMembers, parseName_string hb]
    have hclose : skipBlanks (S.writeMembers n [] (S.gap m ++ unit '}' :: rest)) =
        unit '}' :: rest := skipBlanks_append (S.blank_gap m) _
    show (parseValue fuel none _ >>= _) = _
    rw [parseValue_append S.blank_pad (by omega),
      parseValue_write d fuel n _ hprints.1 (ends_writeMembers _ _ _ _) (by omega)]
    simp only [bind, Except.bind, hclose]
    rfl
  | (k', d') :: members, done, k, d, fuel + 1, n, m, b, rest, hb, hprints, hfuel => by
    simp only [List.length_cons, List.length_append] at hfuel
    have hd : parseValue fuel none (S.write n d (S.writeMembers n ((k', d') :: members)
        (S.gap m ++ unit '}' :: rest))) = _ :=
      parseValue_write d fuel n _ hprints.1 (ends_writeMembers _ _ _ _) (by omega)
    have hlength := (length_of_parseValue _).1 _ _ _ _ hd
    rw [parseMembers, parseName_string hb]
    show (parseValue fuel none _ >>= _) = _
    rw [parseValue_append S.blank_pad (by omega), hd]
    show parseMembers fuel none (done ++ [(k, d)]) (S.gap n ++ unit '"' :: (S.string k' ++ unit '"' ::
      unit ':' :: (S.pad ++ S.write n d' (S.writeMembers n members
        (S.gap m ++ unit '}' :: rest))))) = _
    rw [writeMembers] at hfuel
    rw [writeMembers, List.length_cons] at hlength
    rw [parseMembers_write members (done ++ [(k, d)]) k' d' fuel n m _ rest (S.blank_gap n)
      hprints.2 (by omega), List.append_assoc]
    rfl
termination_by structural _ _ _ _ fuel => fuel

end

mutual

/-- What is written before the rest does not depend on it. -/
theorem write_append : ∀ (d : Doc) (n : ℕ) (rest more : Text),
    S.write n d (rest ++ more) = S.write n d rest ++ more
  | .null, n, rest, more => by rw [write, write, List.append_assoc]
  | .bool true, n, rest, more => by rw [write, write, List.append_assoc]
  | .bool false, n, rest, more => by rw [write, write, List.append_assoc]
  | .num q plain, n, rest, more => by rw [write, write, List.append_assoc]
  | .str t, n, rest, more => by simp [write]
  | .arr [], n, rest, more => by rw [write, write, List.cons_append, List.cons_append]
  | .arr (d :: items), n, rest, more => by
    have happend := writeItems_append items (n + 1) (S.gap n ++ unit ']' :: rest) more
    rw [List.append_assoc, List.cons_append] at happend
    rw [write, write, happend, write_append d]
    simp
  | .obj [], n, rest, more => by rw [write, write, List.cons_append, List.cons_append]
  | .obj ((k, d) :: members), n, rest, more => by
    have happend := writeMembers_append members (n + 1) (S.gap n ++ unit '}' :: rest) more
    rw [List.append_assoc, List.cons_append] at happend
    rw [write, write, happend, write_append d]
    simp

theorem writeItems_append : ∀ (items : List Doc) (n : ℕ) (rest more : Text),
    S.writeItems n items (rest ++ more) = S.writeItems n items rest ++ more
  | [], _, _, _ => rfl
  | d :: items, n, rest, more => by
    rw [writeItems, writeItems, writeItems_append items, write_append d]
    simp

theorem writeMembers_append : ∀ (members : List (Text × Doc)) (n : ℕ) (rest more : Text),
    S.writeMembers n members (rest ++ more) = S.writeMembers n members rest ++ more
  | [], _, _, _ => rfl
  | (k, d) :: members, n, rest, more => by
    rw [writeMembers, writeMembers, writeMembers_append members, write_append d]
    simp

end

/-- An object is written between its braces. -/
theorem print_obj (members : List (Text × Doc)) :
    ∃ middle, S.print (.obj members) = unit '{' :: middle ++ [unit '}'] := by
  rw [print]
  cases members with
  | nil =>
    refine ⟨[], ?_⟩
    rw [write]
    rfl
  | cons m members =>
    obtain ⟨k, d⟩ := m
    have happend := writeMembers_append (S := S) members 1 (S.gap 0) [unit '}']
    refine ⟨S.gap 1 ++ unit '"' :: (S.string k ++ unit '"' :: unit ':' ::
      (S.pad ++ S.write 1 d (S.writeMembers 1 members (S.gap 0)))), ?_⟩
    rw [write, happend, write_append]
    simp

theorem parse_print {d : Doc} (h : S.Prints d) : parse none (S.print d) = .ok (d, []) := by
  rw [parse_fuel le_rfl]
  exact parseValue_write d _ 0 [] h ends_nil le_rfl

end Style

end Interbellum.JsonText
