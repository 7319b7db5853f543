import Mathlib.Algebra.Order.Floor.Defs
import Mathlib.Data.Rat.Defs
import Interbellum.Text.Utf16

/-!
# JSON texts

`Doc` is the value a text stands for, with all members of an object in the order of the text. A
parser returns what it has read together with the rest of the text, or the rest from the first
character that cannot stand where it does; that rest is empty when the text ends too early. The
fuel of `parseValue` only bounds the recursion.

* `length_of_parse`: every value takes up a part of the text.
* `parse_fuel`: with enough fuel for the text, more makes no difference.
* `parse_room`: a limit on the nesting refuses what is nested deeper, and nothing else.
-/

namespace Interbellum.JsonText

open Utf16 (Text unit)

inductive Doc where
  | null
  | bool (b : Bool)
  /-- `plain` when the text has neither a fraction nor an exponent -/
  | num (value : Rat) (plain : Bool)
  | str (t : Text)
  | arr (items : List Doc)
  | obj (members : List (Text × Doc))

mutual

/-- How deep arrays and objects are nested. -/
def Doc.depth : Doc → ℕ
  | .arr items => depthItems items + 1
  | .obj members => depthMembers members + 1
  | .null | .bool _ | .num _ _ | .str _ => 0

def depthItems : List Doc → ℕ
  | [] => 0
  | d :: rest => max d.depth (depthItems rest)

def depthMembers : List (Text × Doc) → ℕ
  | [] => 0
  | (_, d) :: rest => max d.depth (depthMembers rest)

end

/-! ## Characters and digits -/

abbrev Parser (α : Type) := Text → Except Text (α × Text)

def isDigit (u : UInt16) : Bool := unit '0' ≤ u && u ≤ unit '9'

def digitsValue (digits : Text) : ℕ := digits.foldl (fun n u => 10 * n + (u.toNat - 48)) 0

def skipBlanks (t : Text) : Text :=
  t.dropWhile fun u => u ∈ [unit ' ', unit '\t', unit '\n', unit '\r']

def hexDigit (u : UInt16) : Option ℕ :=
  if isDigit u then some (u.toNat - 48)
  else if unit 'a' ≤ u && u ≤ unit 'f' then some (u.toNat - 87)
  else if unit 'A' ≤ u && u ≤ unit 'F' then some (u.toNat - 55)
  else none

def hexUnit (a b c d : UInt16) : Option UInt16 := do
  let high := 16 * (← hexDigit a) + (← hexDigit b)
  let low := 16 * (← hexDigit c) + (← hexDigit d)
  return (256 * high + low).toUInt16

def escaped (u : UInt16) : Option UInt16 :=
  if u = unit '"' || u = unit '\\' || u = unit '/' then some u
  else if u = unit 'b' then some 8
  else if u = unit 'f' then some 12
  else if u = unit 'n' then some 10
  else if u = unit 'r' then some 13
  else if u = unit 't' then some 9
  else none

/-! ## Scalars -/

/-- Put a unit before a string that was read. -/
def consUnit (u : UInt16) (r : Text × Text) : Text × Text := (u :: r.1, r.2)

/-- A string after its opening quote. -/
def parseString : Parser Text
  | [] => .error []
  | u :: rest =>
    if u = unit '"' then .ok ([], rest)
    else if u < 32 then .error (u :: rest)
    else if u = unit '\\' then
      match rest with
      | [] => .error []
      | e :: rest =>
        if e = unit 'u' then
          match rest with
          | a :: b :: c :: d :: tail =>
            match hexUnit a b c d with
            | some w => (parseString tail).map (consUnit w)
            | none => .error ((a :: b :: c :: d :: tail).dropWhile fun h => (hexDigit h).isSome)
          | short => .error (short.dropWhile fun h => (hexDigit h).isSome)
        else
          match escaped e with
          | some w => (parseString rest).map (consUnit w)
          | none => .error (e :: rest)
    else (parseString rest).map (consUnit u)

/-- The digits a text starts with, at least one. -/
def parseDigits : Parser Text := fun t =>
  if t.takeWhile isDigit = [] then .error t else .ok (t.takeWhile isDigit, t.dropWhile isDigit)

/-- An integer part has no leading zero. -/
def parseWhole : Parser Text := fun t =>
  if t.head? = some (unit '0') then .ok ([unit '0'], t.tail) else parseDigits t

def parseFraction : Parser Text := fun t =>
  if t.head? = some (unit '.') then parseDigits t.tail else .ok ([], t)

/-- An exponent, or none. -/
def parseExponent : Parser (Option ℤ) := fun t =>
  if t.head? = some (unit 'e') ∨ t.head? = some (unit 'E') then
    let negative := t.tail.head? = some (unit '-')
    let signed := negative ∨ t.tail.head? = some (unit '+')
    match parseDigits (if signed then t.tail.tail else t.tail) with
    | .error rest => .error rest
    | .ok (digits, rest) =>
      .ok (some (if negative then -digitsValue digits else digitsValue digits), rest)
  else .ok (none, t)

/-- The value of a number from its parts. -/
def numberValue (negative : Bool) (whole fraction : Text) (exponent : ℤ) : Rat :=
  (if negative then -1 else 1) *
    (digitsValue (whole ++ fraction) * 10 ^ (exponent - fraction.length))

def parseNumber : Parser Doc := fun t => do
  let negative := t.head? = some (unit '-')
  let (whole, rest) ← parseWhole (if negative then t.tail else t)
  let (fraction, rest) ← parseFraction rest
  let (exponent, rest) ← parseExponent rest
  return (.num (numberValue negative whole fraction (exponent.getD 0))
    (fraction.isEmpty && exponent.isNone), rest)

/-- A text that starts with the letters of a word. -/
def parseWord (v : Doc) : Text → Parser Doc
  | [], t => .ok (v, t)
  | _ :: _, [] => .error []
  | w :: word, u :: rest => if w = u then parseWord v word rest else .error (u :: rest)

/-- Scalars are told apart by their first letter. -/
def parseScalar : Parser Doc := fun t =>
  if t.head? = some (unit '"') then (parseString t.tail).map fun (s, rest) => (.str s, rest)
  else if t.head? = some (unit 't') then parseWord (.bool true) (Text.ofString "true") t
  else if t.head? = some (unit 'f') then parseWord (.bool false) (Text.ofString "false") t
  else if t.head? = some (unit 'n') then parseWord .null (Text.ofString "null") t
  else parseNumber t

/-! ## Values -/

/-- A name and the colon after it. -/
def parseName : Parser Text := fun t =>
  if (skipBlanks t).head? = some (unit '"') then do
    let (k, rest) ← parseString (skipBlanks t).tail
    if (skipBlanks rest).head? = some (unit ':') then .ok (k, (skipBlanks rest).tail)
    else .error (skipBlanks rest)
  else .error (skipBlanks t)

mutual

/-- `room` is how many more arrays and objects may be opened, where that is limited. -/
def parseValue : ℕ → Option ℕ → Parser Doc
  | 0, _, t => .error t
  | fuel + 1, room, t =>
    let t := skipBlanks t
    if t.head? = some (unit '{') ∨ t.head? = some (unit '[') then
      let rest := skipBlanks t.tail
      if room = some 0 then .error t
      else if t.head? = some (unit '{') then
        if rest.head? = some (unit '}') then .ok (.obj [], rest.tail)
        else parseMembers fuel (room.map Nat.pred) [] rest
      else if rest.head? = some (unit ']') then .ok (.arr [], rest.tail)
      else parseItems fuel (room.map Nat.pred) [] rest
    else parseScalar t

/-- The items from here on, after those read so far. -/
def parseItems : ℕ → Option ℕ → List Doc → Parser Doc
  | 0, _, _, t => .error t
  | fuel + 1, room, items, t => do
    let (d, rest) ← parseValue fuel room t
    if (skipBlanks rest).head? = some (unit ',') then
      parseItems fuel room (items ++ [d]) (skipBlanks rest).tail
    else if (skipBlanks rest).head? = some (unit ']') then
      .ok (.arr (items ++ [d]), (skipBlanks rest).tail)
    else .error (skipBlanks rest)

def parseMembers : ℕ → Option ℕ → List (Text × Doc) → Parser Doc
  | 0, _, _, t => .error t
  | fuel + 1, room, members, t => do
    let (k, rest) ← parseName t
    let (d, rest) ← parseValue fuel room rest
    if (skipBlanks rest).head? = some (unit ',') then
      parseMembers fuel room (members ++ [(k, d)]) (skipBlanks rest).tail
    else if (skipBlanks rest).head? = some (unit '}') then
      .ok (.obj (members ++ [(k, d)]), (skipBlanks rest).tail)
    else .error (skipBlanks rest)

end

/-- The value a text starts with. -/
def parse (room : Option ℕ) : Parser Doc := fun t => parseValue (2 * t.length + 1) room t

/-! ## What is left of a text -/

theorem ok_of_bind {ε α β : Type} {x : Except ε α} {f : α → Except ε β} {b : β}
    (h : x >>= f = .ok b) : ∃ a, x = .ok a ∧ f a = .ok b := by
  cases x with
  | error e => cases h
  | ok a => exact ⟨a, rfl, h⟩

theorem ok_of_map {ε α β : Type} {x : Except ε α} {f : α → β} {b : β}
    (h : x.map f = .ok b) : ∃ a, x = .ok a ∧ f a = b := by
  cases x with
  | error e => cases h
  | ok a => exact ⟨a, rfl, Except.ok.inj h⟩

theorem length_skipBlanks_le (t : Text) : (skipBlanks t).length ≤ t.length :=
  (List.dropWhile_suffix _).length_le

theorem length_tail_lt {t : Text} {u : UInt16} (h : t.head? = some u) :
    t.tail.length < t.length := by
  obtain ⟨rest, rfl⟩ := List.head?_eq_some_iff.mp h
  exact Nat.lt_succ_self _

theorem length_tail_le (t : Text) : t.tail.length ≤ t.length := (List.tail_suffix t).length_le

theorem length_blank_lt {t : Text} {u : UInt16} (h : (skipBlanks t).head? = some u) :
    (skipBlanks t).tail.length < t.length :=
  (length_tail_lt h).trans_le (length_skipBlanks_le t)

theorem ok_of_consUnit {x : Except Text (Text × Text)} {u : UInt16} {s rest : Text}
    (h : x.map (consUnit u) = .ok (s, rest)) : ∃ s', x = .ok (s', rest) := by
  obtain ⟨⟨s', rest'⟩, hx, hpair⟩ := ok_of_map h
  obtain ⟨-, rfl⟩ := Prod.mk.inj hpair
  exact ⟨s', hx⟩

theorem length_of_parseString {t s rest : Text} (h : parseString t = .ok (s, rest)) :
    rest.length < t.length := by
  fun_induction parseString t generalizing s with
  | case1 => cases h
  | case2 tail =>
    obtain ⟨-, rfl⟩ := Prod.mk.inj (Except.ok.inj h)
    exact Nat.lt_succ_self _
  | case3 => cases h
  | case4 => cases h
  | case5 a b c d tail _ _ w _ ih =>
    obtain ⟨s', hrest⟩ := ok_of_consUnit h
    exact (ih hrest).trans (by simp only [List.length_cons]; omega)
  | case6 => cases h
  | case7 => cases h
  | case8 e tail _ _ _ w _ ih =>
    obtain ⟨s', hrest⟩ := ok_of_consUnit h
    exact (ih hrest).trans (by simp only [List.length_cons]; omega)
  | case9 => cases h
  | case10 u tail _ _ _ ih =>
    obtain ⟨s', hrest⟩ := ok_of_consUnit h
    exact (ih hrest).trans (Nat.lt_succ_self _)

theorem length_of_parseDigits {t digits rest : Text} (h : parseDigits t = .ok (digits, rest)) :
    rest.length < t.length := by
  unfold parseDigits at h
  split_ifs at h with hdigits
  obtain ⟨rfl, rfl⟩ := Prod.mk.inj (Except.ok.inj h)
  have hsplit := congrArg List.length (List.takeWhile_append_dropWhile (p := isDigit) (l := t))
  rw [List.length_append] at hsplit
  have := List.length_pos_iff.mpr hdigits
  omega

theorem length_of_parseWhole {t digits rest : Text} (h : parseWhole t = .ok (digits, rest)) :
    rest.length < t.length := by
  unfold parseWhole at h
  split_ifs at h with hzero
  · obtain ⟨-, rfl⟩ := Prod.mk.inj (Except.ok.inj h)
    exact length_tail_lt hzero
  · exact length_of_parseDigits h

theorem length_of_parseFraction {t digits rest : Text}
    (h : parseFraction t = .ok (digits, rest)) : rest.length ≤ t.length := by
  unfold parseFraction at h
  split_ifs at h with hpoint
  · exact (length_of_parseDigits h).le.trans (length_tail_le t)
  · obtain ⟨-, rfl⟩ := Prod.mk.inj (Except.ok.inj h)
    exact le_rfl

theorem length_of_parseExponent {t rest : Text} {e : Option ℤ}
    (h : parseExponent t = .ok (e, rest)) : rest.length ≤ t.length := by
  unfold parseExponent at h
  split_ifs at h
  · dsimp only at h
    split at h
    · cases h
    · next digits rest' hdigits =>
      obtain ⟨-, rfl⟩ := Prod.mk.inj (Except.ok.inj h)
      refine (length_of_parseDigits hdigits).le.trans ?_
      split_ifs
      · exact (length_tail_le _).trans (length_tail_le t)
      · exact length_tail_le t
  · obtain ⟨-, rfl⟩ := Prod.mk.inj (Except.ok.inj h)
    exact le_rfl

theorem length_of_parseNumber {t rest : Text} {d : Doc} (h : parseNumber t = .ok (d, rest)) :
    rest.length < t.length := by
  obtain ⟨⟨whole, rest₁⟩, hwhole, h⟩ := ok_of_bind h
  obtain ⟨⟨fraction, rest₂⟩, hfraction, h⟩ := ok_of_bind h
  obtain ⟨⟨e, rest₃⟩, hexponent, h⟩ := ok_of_bind h
  obtain ⟨-, rfl⟩ := Prod.mk.inj (Except.ok.inj h)
  refine (length_of_parseExponent hexponent).trans_lt ?_
  refine (length_of_parseFraction hfraction).trans_lt ?_
  refine (length_of_parseWhole hwhole).trans_le ?_
  split_ifs
  · exact length_tail_le t
  · exact le_rfl

theorem length_of_parseWord {d d' : Doc} {word t rest : Text} (hword : word ≠ [])
    (h : parseWord d word t = .ok (d', rest)) : rest.length < t.length := by
  induction word generalizing t with
  | nil => exact absurd rfl hword
  | cons w word ih =>
    cases t with
    | nil => cases h
    | cons u tail =>
      rw [parseWord] at h
      split_ifs at h
      by_cases hnil : word = []
      · subst hnil
        obtain ⟨-, rfl⟩ := Prod.mk.inj (Except.ok.inj h)
        exact Nat.lt_succ_self _
      · exact (ih hnil h).trans (Nat.lt_succ_self _)

theorem length_of_parseScalar {t rest : Text} {d : Doc} (h : parseScalar t = .ok (d, rest)) :
    rest.length < t.length := by
  unfold parseScalar at h
  split_ifs at h with hquote
  · obtain ⟨⟨s, rest'⟩, hstring, h⟩ := ok_of_map h
    obtain ⟨-, rfl⟩ := Prod.mk.inj h
    exact (length_of_parseString hstring).trans (length_tail_lt hquote)
  · exact length_of_parseWord (by decide) h
  · exact length_of_parseWord (by decide) h
  · exact length_of_parseWord (by decide) h
  · exact length_of_parseNumber h

theorem length_of_parseName {t k rest : Text} (h : parseName t = .ok (k, rest)) :
    rest.length < t.length := by
  unfold parseName at h
  split_ifs at h with hquote
  obtain ⟨⟨k', rest'⟩, hname, h⟩ := ok_of_bind h
  dsimp only at h
  split_ifs at h with hcolon
  obtain ⟨-, rfl⟩ := Prod.mk.inj (Except.ok.inj h)
  have hquoted := (length_of_parseString hname).trans (length_blank_lt hquote)
  exact (length_blank_lt hcolon).trans hquoted

/-- Every value takes up a part of the text. -/
theorem length_of_parseValue (fuel : ℕ) :
    (∀ room t d rest, parseValue fuel room t = .ok (d, rest) → rest.length < t.length) ∧
    (∀ room items t d rest, parseItems fuel room items t = .ok (d, rest) →
      rest.length < t.length) ∧
    ∀ room members t d rest, parseMembers fuel room members t = .ok (d, rest) →
      rest.length < t.length := by
  induction fuel with
  | zero => exact ⟨nofun, nofun, nofun⟩
  | succ fuel ih =>
    obtain ⟨hvalue, hitems, hmembers⟩ := ih
    refine ⟨?_, ?_, ?_⟩
    · intro room t d rest h
      rw [parseValue] at h
      dsimp only at h
      split_ifs at h with hopen _ hbrace hclose hclose
      · obtain ⟨-, rfl⟩ := Prod.mk.inj (Except.ok.inj h)
        exact (length_blank_lt hclose).trans (length_blank_lt hbrace)
      · have := hmembers _ _ _ _ _ h
        exact (this.trans_le (length_skipBlanks_le _)).trans (length_blank_lt hbrace)
      · obtain ⟨-, rfl⟩ := Prod.mk.inj (Except.ok.inj h)
        exact (length_blank_lt hclose).trans (length_blank_lt (hopen.resolve_left hbrace))
      · have := hitems _ _ _ _ _ h
        exact (this.trans_le (length_skipBlanks_le _)).trans
          (length_blank_lt (hopen.resolve_left hbrace))
      · exact (length_of_parseScalar h).trans_le (length_skipBlanks_le t)
    · intro room items t d rest h
      rw [parseItems] at h
      obtain ⟨⟨d', rest₁⟩, hd, h⟩ := ok_of_bind h
      dsimp only at h
      split_ifs at h with hcomma hclose
      · exact (hitems _ _ _ _ _ h).trans ((length_blank_lt hcomma).trans (hvalue _ _ _ _ hd))
      · obtain ⟨-, rfl⟩ := Prod.mk.inj (Except.ok.inj h)
        exact (length_blank_lt hclose).trans (hvalue _ _ _ _ hd)
    · intro room members t d rest h
      rw [parseMembers] at h
      obtain ⟨⟨k, rest₁⟩, hk, h⟩ := ok_of_bind h
      obtain ⟨⟨d', rest₂⟩, hd, h⟩ := ok_of_bind h
      have hstart := (hvalue _ _ _ _ hd).trans (length_of_parseName hk)
      dsimp only at h
      split_ifs at h with hcomma hclose
      · exact (hmembers _ _ _ _ _ h).trans ((length_blank_lt hcomma).trans hstart)
      · obtain ⟨-, rfl⟩ := Prod.mk.inj (Except.ok.inj h)
        exact (length_blank_lt hclose).trans hstart

/-- With enough fuel for the text, more makes no difference. -/
theorem parseValue_fuel (fuel : ℕ) :
    (∀ fuel' room t, 2 * t.length + 1 ≤ fuel → 2 * t.length + 1 ≤ fuel' →
      parseValue fuel room t = parseValue fuel' room t) ∧
    (∀ fuel' room items t, 2 * t.length + 2 ≤ fuel → 2 * t.length + 2 ≤ fuel' →
      parseItems fuel room items t = parseItems fuel' room items t) ∧
    ∀ fuel' room members t, 2 * t.length + 2 ≤ fuel → 2 * t.length + 2 ≤ fuel' →
      parseMembers fuel room members t = parseMembers fuel' room members t := by
  induction fuel with
  | zero => exact ⟨fun _ _ _ h => by omega, fun _ _ _ _ h => by omega, fun _ _ _ _ h => by omega⟩
  | succ fuel ih =>
    obtain ⟨hvalue, hitems, hmembers⟩ := ih
    refine ⟨?_, ?_, ?_⟩
    · intro fuel' room t h h'
      obtain ⟨fuel', rfl⟩ : ∃ n, fuel' = n + 1 := ⟨fuel' - 1, by omega⟩
      rw [parseValue, parseValue]
      dsimp only
      split_ifs with hopen _ hbrace
      · rfl
      · rfl
      · have := length_blank_lt hbrace
        have := length_skipBlanks_le (skipBlanks t).tail
        exact hmembers _ _ _ _ (by omega) (by omega)
      · rfl
      · have := length_blank_lt (hopen.resolve_left hbrace)
        have := length_skipBlanks_le (skipBlanks t).tail
        exact hitems _ _ _ _ (by omega) (by omega)
      · rfl
    · intro fuel' room items t h h'
      obtain ⟨fuel', rfl⟩ : ∃ n, fuel' = n + 1 := ⟨fuel' - 1, by omega⟩
      rw [parseItems, parseItems, hvalue fuel' room t (by omega) (by omega)]
      cases hd : parseValue fuel' room t with
      | error _ => rfl
      | ok r =>
        obtain ⟨d, rest⟩ := r
        have := (length_of_parseValue _).1 _ _ _ _ hd
        show ite _ _ _ = ite _ _ _
        split_ifs with hcomma
        · have := length_blank_lt hcomma
          exact hitems _ _ _ _ (by omega) (by omega)
        · rfl
        · rfl
    · intro fuel' room members t h h'
      obtain ⟨fuel', rfl⟩ : ∃ n, fuel' = n + 1 := ⟨fuel' - 1, by omega⟩
      rw [parseMembers, parseMembers]
      cases hk : parseName t with
      | error _ => rfl
      | ok k =>
        obtain ⟨k, rest₁⟩ := k
        have := length_of_parseName hk
        show (parseValue fuel room rest₁ >>= _) = (parseValue fuel' room rest₁ >>= _)
        rw [hvalue fuel' room rest₁ (by omega) (by omega)]
        cases hd : parseValue fuel' room rest₁ with
        | error _ => rfl
        | ok r =>
          obtain ⟨d, rest⟩ := r
          have := (length_of_parseValue _).1 _ _ _ _ hd
          show ite _ _ _ = ite _ _ _
          split_ifs with hcomma
          · have := length_blank_lt hcomma
            exact hmembers _ _ _ _ (by omega) (by omega)
          · rfl
          · rfl

theorem parse_fuel {room : Option ℕ} {t : Text} {fuel : ℕ} (h : 2 * t.length + 1 ≤ fuel) :
    parse room t = parseValue fuel room t :=
  (parseValue_fuel _).1 fuel room t le_rfl h

/-! ## Nesting -/

/-- There is room for as many levels as are nested. -/
def Room (room : Option ℕ) (n : ℕ) : Prop := ∀ r ∈ room, n ≤ r

theorem parse_blank {room : Option ℕ} {t : Text} (h : skipBlanks t = []) :
    parse room t = .error [] := by
  rw [parse, parseValue]
  simp only [h, List.head?_nil, reduceCtorEq, or_self, if_false]
  rfl

theorem depthItems_append (items : List Doc) (d : Doc) :
    depthItems (items ++ [d]) = max (depthItems items) d.depth := by
  induction items with
  | nil => simp [depthItems]
  | cons d' rest ih => simp [depthItems, ih, max_assoc]

theorem depthMembers_append (members : List (Text × Doc)) (k : Text) (d : Doc) :
    depthMembers (members ++ [(k, d)]) = max (depthMembers members) d.depth := by
  induction members with
  | nil => simp [depthMembers]
  | cons m rest ih => simp [depthMembers, ih, max_assoc]

theorem room_max {room : Option ℕ} {m n : ℕ} : Room room (max m n) ↔ Room room m ∧ Room room n := by
  simp only [Room, max_le_iff, forall_and]

theorem room_succ {room : Option ℕ} {n : ℕ} :
    Room room (n + 1) ↔ room ≠ some 0 ∧ Room (room.map Nat.pred) n := by
  cases room with
  | none => simp [Room]
  | some r =>
    simp only [Room, Option.mem_def, Option.map_some, Option.some.injEq, forall_eq', ne_eq]
    rw [Nat.pred_eq_sub_one]
    omega

theorem depth_of_parseWord {d d' : Doc} {word t rest : Text}
    (h : parseWord d word t = .ok (d', rest)) : d' = d := by
  induction word generalizing t with
  | nil => exact (Prod.mk.inj (Except.ok.inj h)).1.symm
  | cons w word ih =>
    cases t with
    | nil => cases h
    | cons u tail =>
      rw [parseWord] at h
      split_ifs at h
      exact ih h

theorem depth_of_parseScalar {t rest : Text} {d : Doc} (h : parseScalar t = .ok (d, rest)) :
    d.depth = 0 := by
  unfold parseScalar at h
  split_ifs at h
  · obtain ⟨_, -, h⟩ := ok_of_map h
    obtain ⟨rfl, -⟩ := Prod.mk.inj h
    rfl
  · rw [depth_of_parseWord h]
    rfl
  · rw [depth_of_parseWord h]
    rfl
  · rw [depth_of_parseWord h]
    rfl
  · obtain ⟨_, -, h⟩ := ok_of_bind h
    obtain ⟨_, -, h⟩ := ok_of_bind h
    obtain ⟨_, -, h⟩ := ok_of_bind h
    obtain ⟨rfl, -⟩ := Prod.mk.inj (Except.ok.inj h)
    rfl

theorem bind_ok_iff {ε α β : Type} {x : Except ε α} {f : α → Except ε β} {b : β} :
    x >>= f = .ok b ↔ ∃ a, x = .ok a ∧ f a = .ok b :=
  ⟨ok_of_bind, fun ⟨_, ha, hb⟩ => by rw [ha]; exact hb⟩

/-- What has been read of an array or object is a part of the value. -/
theorem depth_lt_of_parse (fuel : ℕ) (room : Option ℕ) :
    (∀ items t d rest, parseItems fuel room items t = .ok (d, rest) →
      depthItems items < d.depth) ∧
    ∀ members t d rest, parseMembers fuel room members t = .ok (d, rest) →
      depthMembers members < d.depth := by
  induction fuel with
  | zero => exact ⟨nofun, nofun⟩
  | succ fuel ih =>
    obtain ⟨hitems, hmembers⟩ := ih
    refine ⟨?_, ?_⟩
    · intro items t d rest h
      rw [parseItems] at h
      obtain ⟨⟨d', rest'⟩, -, h⟩ := ok_of_bind h
      have hle : depthItems items ≤ depthItems (items ++ [d']) := by
        rw [depthItems_append]
        exact le_max_left _ _
      dsimp only at h
      split_ifs at h
      · exact hle.trans_lt (hitems _ _ _ _ h)
      · obtain ⟨rfl, -⟩ := Prod.mk.inj (Except.ok.inj h)
        exact Nat.lt_succ_of_le hle
    · intro members t d rest h
      rw [parseMembers] at h
      obtain ⟨⟨k, rest₁⟩, -, h⟩ := ok_of_bind h
      obtain ⟨⟨d', rest'⟩, -, h⟩ := ok_of_bind h
      have hle : depthMembers members ≤ depthMembers (members ++ [(k, d')]) := by
        rw [depthMembers_append]
        exact le_max_left _ _
      dsimp only at h
      split_ifs at h
      · exact hle.trans_lt (hmembers _ _ _ _ h)
      · obtain ⟨rfl, -⟩ := Prod.mk.inj (Except.ok.inj h)
        exact Nat.lt_succ_of_le hle

theorem Room.mono {room : Option ℕ} {m n : ℕ} (h : Room room n) (hmn : m ≤ n) : Room room m :=
  fun r hr => hmn.trans (h r hr)

/-- Opening an array or object takes one level. -/
theorem opened_iff {room : Option ℕ} {x y : Except Text (Doc × Text)} {t : Text} {d : Doc}
    {rest : Text} (hpos : y = .ok (d, rest) → 0 < d.depth)
    (hxy : x = .ok (d, rest) ↔ y = .ok (d, rest) ∧ Room (room.map Nat.pred) (d.depth - 1)) :
    (if room = some 0 then .error t else x) = .ok (d, rest) ↔
      y = .ok (d, rest) ∧ Room room d.depth := by
  have hroom : 0 < d.depth →
      (Room room d.depth ↔ room ≠ some 0 ∧ Room (room.map Nat.pred) (d.depth - 1)) := by
    intro hd
    rw [← room_succ, Nat.sub_add_cancel hd]
  split_ifs with hzero
  · constructor
    · exact nofun
    · rintro ⟨hy, hdepth⟩
      exact absurd hzero ((hroom (hpos hy)).mp hdepth).1
  · rw [hxy]
    refine and_congr_right fun hy => ?_
    rw [hroom (hpos hy), and_iff_right hzero]

/-- With this fuel, a limit on the nesting refuses the values that are nested deeper, and no
others. -/
def ValueRoom (fuel : ℕ) : Prop :=
  ∀ room t d rest, parseValue fuel room t = .ok (d, rest) ↔
    parseValue fuel none t = .ok (d, rest) ∧ Room room d.depth

/-- The same of the items of an array, one level below it. -/
def ItemsRoom (fuel : ℕ) : Prop :=
  ∀ room items t d rest, Room room (depthItems items) →
    (parseItems fuel room items t = .ok (d, rest) ↔
      parseItems fuel none items t = .ok (d, rest) ∧ Room room (d.depth - 1))

def MembersRoom (fuel : ℕ) : Prop :=
  ∀ room members t d rest, Room room (depthMembers members) →
    (parseMembers fuel room members t = .ok (d, rest) ↔
      parseMembers fuel none members t = .ok (d, rest) ∧ Room room (d.depth - 1))

theorem valueRoom_succ {fuel : ℕ} (hitems : ItemsRoom fuel) (hmembers : MembersRoom fuel) :
    ValueRoom (fuel + 1) := by
  intro room t d rest
  rw [parseValue, parseValue]
  simp only [Option.map_none, reduceCtorEq, if_false]
  by_cases hopen : (skipBlanks t).head? = some (unit '{') ∨
      (skipBlanks t).head? = some (unit '[')
  · rw [if_pos hopen, if_pos hopen]
    apply opened_iff
    · intro h
      split_ifs at h
      · obtain ⟨rfl, -⟩ := Prod.mk.inj (Except.ok.inj h)
        exact Nat.succ_pos _
      · exact (Nat.zero_le _).trans_lt ((depth_lt_of_parse _ _).2 _ _ _ _ h)
      · obtain ⟨rfl, -⟩ := Prod.mk.inj (Except.ok.inj h)
        exact Nat.succ_pos _
      · exact (Nat.zero_le _).trans_lt ((depth_lt_of_parse _ _).1 _ _ _ _ h)
    · split_ifs
      · refine (and_iff_left_of_imp fun h => ?_).symm
        obtain ⟨rfl, -⟩ := Prod.mk.inj (Except.ok.inj h)
        exact fun _ _ => Nat.zero_le _
      · exact hmembers _ _ _ _ _ fun _ _ => Nat.zero_le _
      · refine (and_iff_left_of_imp fun h => ?_).symm
        obtain ⟨rfl, -⟩ := Prod.mk.inj (Except.ok.inj h)
        exact fun _ _ => Nat.zero_le _
      · exact hitems _ _ _ _ _ fun _ _ => Nat.zero_le _
  · rw [if_neg hopen, if_neg hopen]
    refine (and_iff_left_of_imp fun h => ?_).symm
    rw [depth_of_parseScalar h]
    exact fun _ _ => Nat.zero_le _

theorem itemsRoom_succ {fuel : ℕ} (hvalue : ValueRoom fuel) (hitems : ItemsRoom fuel) :
    ItemsRoom (fuel + 1) := by
  intro room items t d rest hroom
  rw [parseItems, parseItems, bind_ok_iff, bind_ok_iff]
  constructor
  · rintro ⟨⟨d', rest'⟩, hd, h⟩
    obtain ⟨hd, hdepth⟩ := (hvalue _ _ _ _).mp hd
    have hroom' : Room room (depthItems (items ++ [d'])) := by
      rw [depthItems_append, room_max]
      exact ⟨hroom, hdepth⟩
    dsimp only at h
    split_ifs at h with hcomma hclose
    · obtain ⟨h, hfinal⟩ := (hitems _ _ _ _ _ hroom').mp h
      refine ⟨⟨_, hd, ?_⟩, hfinal⟩
      dsimp only
      rw [if_pos hcomma]
      exact h
    · obtain ⟨rfl, rfl⟩ := Prod.mk.inj (Except.ok.inj h)
      refine ⟨⟨_, hd, ?_⟩, hroom'⟩
      dsimp only
      rw [if_neg hcomma, if_pos hclose]
  · rintro ⟨⟨⟨d', rest'⟩, hd, h⟩, hfinal⟩
    dsimp only at h
    have hlt : depthItems (items ++ [d']) < d.depth := by
      split_ifs at h
      · exact (depth_lt_of_parse _ _).1 _ _ _ _ h
      · obtain ⟨rfl, -⟩ := Prod.mk.inj (Except.ok.inj h)
        exact Nat.lt_succ_self _
    have hroom' : Room room (depthItems (items ++ [d'])) := hfinal.mono (by omega)
    have hdepth : Room room d'.depth := by
      rw [depthItems_append, room_max] at hroom'
      exact hroom'.2
    refine ⟨_, (hvalue _ _ _ _).mpr ⟨hd, hdepth⟩, ?_⟩
    dsimp only
    split_ifs at h ⊢
    · exact (hitems _ _ _ _ _ hroom').mpr ⟨h, hfinal⟩
    · exact h

theorem membersRoom_succ {fuel : ℕ} (hvalue : ValueRoom fuel) (hmembers : MembersRoom fuel) :
    MembersRoom (fuel + 1) := by
  intro room members t d rest hroom
  rw [parseMembers, parseMembers, bind_ok_iff, bind_ok_iff]
  constructor
  · rintro ⟨⟨k, rest₁⟩, hk, h⟩
    obtain ⟨⟨d', rest'⟩, hd, h⟩ := ok_of_bind h
    obtain ⟨hd, hdepth⟩ := (hvalue _ _ _ _).mp hd
    have hroom' : Room room (depthMembers (members ++ [(k, d')])) := by
      rw [depthMembers_append, room_max]
      exact ⟨hroom, hdepth⟩
    dsimp only at h
    split_ifs at h with hcomma hclose
    · obtain ⟨h, hfinal⟩ := (hmembers _ _ _ _ _ hroom').mp h
      refine ⟨⟨_, hk, bind_ok_iff.mpr ⟨_, hd, ?_⟩⟩, hfinal⟩
      dsimp only
      rw [if_pos hcomma]
      exact h
    · obtain ⟨rfl, rfl⟩ := Prod.mk.inj (Except.ok.inj h)
      refine ⟨⟨_, hk, bind_ok_iff.mpr ⟨_, hd, ?_⟩⟩, hroom'⟩
      dsimp only
      rw [if_neg hcomma, if_pos hclose]
  · rintro ⟨⟨⟨k, rest₁⟩, hk, h⟩, hfinal⟩
    obtain ⟨⟨d', rest'⟩, hd, h⟩ := ok_of_bind h
    dsimp only at h
    have hlt : depthMembers (members ++ [(k, d')]) < d.depth := by
      split_ifs at h
      · exact (depth_lt_of_parse _ _).2 _ _ _ _ h
      · obtain ⟨rfl, -⟩ := Prod.mk.inj (Except.ok.inj h)
        exact Nat.lt_succ_self _
    have hroom' : Room room (depthMembers (members ++ [(k, d')])) := hfinal.mono (by omega)
    have hdepth : Room room d'.depth := by
      rw [depthMembers_append, room_max] at hroom'
      exact hroom'.2
    refine ⟨_, hk, bind_ok_iff.mpr ⟨_, (hvalue _ _ _ _).mpr ⟨hd, hdepth⟩, ?_⟩⟩
    dsimp only
    split_ifs at h ⊢
    · exact (hmembers _ _ _ _ _ hroom').mpr ⟨h, hfinal⟩
    · exact h

theorem parseValue_room (fuel : ℕ) : ValueRoom fuel ∧ ItemsRoom fuel ∧ MembersRoom fuel := by
  induction fuel with
  | zero =>
    exact ⟨by simp [ValueRoom, parseValue], by simp [ItemsRoom, parseItems],
      by simp [MembersRoom, parseMembers]⟩
  | succ fuel ih =>
    obtain ⟨hvalue, hitems, hmembers⟩ := ih
    exact ⟨valueRoom_succ hitems hmembers, itemsRoom_succ hvalue hitems,
      membersRoom_succ hvalue hmembers⟩

theorem parse_room {room : Option ℕ} {t rest : Text} {d : Doc} :
    parse room t = .ok (d, rest) ↔ parse none t = .ok (d, rest) ∧ Room room d.depth :=
  (parseValue_room _).1 _ _ _ _

end Interbellum.JsonText
