import Otmp.Foundation.CborReaders
import Otmp.Protocol.CanonicalText
import Otmp.Protocol.Objects

/-!
# Reading canonical JSON text

A reader of canonical text returns the value whose text it reads, whatever follows, so
a value is determined by its text and by the bytes of its text. The reader accepts no
white space and no other spelling; it is as fast as the nesting and length of the text
allow and takes its fuel from the length.
-/

namespace Otmp

namespace CanonicalValue

open Foundation

/-- The character that a short escape stands for, if the letter is one of a short escape. -/
def unescape (c : Char) : Option Char :=
  if c = 'b' then some (Char.ofNat 8)
  else if c = 't' then some (Char.ofNat 9)
  else if c = 'n' then some (Char.ofNat 10)
  else if c = 'f' then some (Char.ofNat 12)
  else if c = 'r' then some (Char.ofNat 13)
  else if c = Char.ofNat 34 ∨ c = Char.ofNat 92 then some c
  else none

/-- Read one character of a string, which may be written as an escape. -/
def readChar : List Char → Option (Char × List Char)
  | [] => none
  | c :: rest =>
    if c = Char.ofNat 92 then
      match rest with
      | 'u' :: a :: b :: c :: d :: rest => (hexNat? [a, b, c, d]).map (Char.ofNat ·, rest)
      | e :: rest => (unescape e).map (·, rest)
      | [] => none
    else some (c, rest)

/-- Read the characters of a string up to its closing quotation mark. -/
def readChars : ℕ → List Char → Option (List Char × List Char)
  | 0, _ => none
  | fuel + 1, cs =>
    if cs.head? = some (Char.ofNat 34) then some ([], cs.tail)
    else do
      let (c, rest) ← readChar cs
      let (cs, rest) ← readChars fuel rest
      return (c :: cs, rest)

/-- The text of an escaped character reads back. -/
theorem readChar_escape (c : Char) (rest : List Char) :
    readChar (escapeChar c ++ rest) = some (c, rest) ∧
      (escapeChar c ++ rest).head? ≠ some (Char.ofNat 34) := by
  have hslash : some (Char.ofNat 92) ≠ some (Char.ofNat 34) := by decide
  unfold escapeChar
  split
  · rename_i h
    subst h
    exact ⟨rfl, hslash⟩
  split
  · rename_i h
    subst h
    exact ⟨rfl, hslash⟩
  split
  · rename_i h
    subst h
    exact ⟨rfl, hslash⟩
  split
  · rename_i h
    subst h
    exact ⟨rfl, hslash⟩
  split
  · rename_i h
    subst h
    exact ⟨rfl, hslash⟩
  split
  · rename_i h
    subst h
    exact ⟨rfl, hslash⟩
  split
  · rename_i h
    subst h
    exact ⟨rfl, hslash⟩
  split
  · rename_i h
    refine ⟨?_, hslash⟩
    have hhex : hexNat? (hexFixed 4 c.toNat) = some c.toNat := hexNat?_hexFixed (by omega)
    change ((hexNat? (hexFixed 4 c.toNat)).map (Char.ofNat ·, rest)) = _
    rw [hhex, Option.map_some, Char.ofNat_toNat]
  · rename_i hquote hback _ _ _ _ _ _
    refine ⟨?_, fun heq => hquote (Option.some.inj heq)⟩
    change (if c = Char.ofNat 92 then _ else some (c, rest)) = _
    rw [if_neg hback]

/-- The text of an escaped string reads back. -/
theorem readChars_escape {fuel : ℕ} (cs rest : List Char) (hfuel : cs.length < fuel) :
    readChars fuel (cs.flatMap escapeChar ++ Char.ofNat 34 :: rest) = some (cs, rest) := by
  induction cs generalizing fuel with
  | nil =>
    cases fuel with
    | zero => omega
    | succ fuel => rfl
  | cons c cs ih =>
    cases fuel with
    | zero => omega
    | succ fuel =>
      rw [List.length_cons] at hfuel
      obtain ⟨hread, hhead⟩ := readChar_escape c (cs.flatMap escapeChar ++ Char.ofNat 34 :: rest)
      have hrest : readChars fuel (cs.flatMap escapeChar ++ Char.ofNat 34 :: rest) =
          some (cs, rest) := ih (by omega)
      rw [List.flatMap_cons, List.append_assoc, readChars, if_neg hhead, hread]
      simp only [Option.bind_eq_bind, Option.bind_some, hrest, Option.pure_def]

/-- A character of a number in canonical text, which has no fraction and no exponent. -/
def isNumeric (c : Char) : Bool := c.isDigit || c == '-'

/-- Read a number as far as its characters go. -/
def readNumber (cs : List Char) : Option (ℤ × List Char) :=
  (decimalInt? (cs.takeWhile isNumeric)).map (·, cs.dropWhile isNumeric)

/-- What follows a value in a text: nothing that could continue a number. -/
def Delimited (rest : List Char) : Prop := ∀ c ∈ rest.head?, isNumeric c = false

/-- The text of a number reads back. -/
theorem readNumber_decimalInt (n : ℤ) {rest : List Char} (hrest : Delimited rest) :
    readNumber (decimalInt n ++ rest) = some (n, rest) := by
  have hdigits : ∀ c ∈ Nat.toDigits 10 n.natAbs, isNumeric c = true := by
    intro c hc
    rw [isNumeric, Nat.isDigit_of_mem_toDigits (by decide) (by decide) hc, Bool.true_or]
  have hall : ∀ c ∈ decimalInt n, isNumeric c = true := by
    unfold decimalInt
    split
    · exact List.forall_mem_cons.mpr ⟨by decide, hdigits⟩
    · exact hdigits
  have htake : rest.takeWhile isNumeric = [] ∧ rest.dropWhile isNumeric = rest := by
    cases rest with
    | nil => exact ⟨rfl, rfl⟩
    | cons c rest =>
      have hc := hrest c rfl
      exact ⟨List.takeWhile_cons_of_neg (by simp [hc]), List.dropWhile_cons_of_neg (by simp [hc])⟩
  rw [readNumber, List.takeWhile_append_of_pos hall, List.dropWhile_append_of_pos hall,
    htake.1, htake.2, List.append_nil, decimalInt?_decimalInt, Option.map_some]

/-- Read the rest of a keyword, which stands for one value. -/
def keyword (text : List Char) (value : CanonicalValue) (cs : List Char) :
    Option (CanonicalValue × List Char) :=
  if cs.take text.length = text then some (value, cs.drop text.length) else none

mutual

/-- Read a value, told by its first character, with fuel for the nesting. -/
def readValue : ℕ → List Char → Option (CanonicalValue × List Char)
  | 0, _ => none
  | _ + 1, [] => none
  | fuel + 1, c :: rest =>
    if c = 'n' then keyword ['u', 'l', 'l'] .null rest
    else if c = 't' then keyword ['r', 'u', 'e'] (.bool true) rest
    else if c = 'f' then keyword ['a', 'l', 's', 'e'] (.bool false) rest
    else if c = Char.ofNat 34 then
      (readChars (rest.length + 1) rest).map fun r => (.string (String.ofList r.1), r.2)
    else if c = '[' then
      if rest.head? = some ']' then some (.array [], rest.tail)
      else (readElements fuel rest).map fun r => (.array r.1, r.2)
    else if c = Char.ofNat 123 then
      if rest.head? = some (Char.ofNat 125) then some (.object [], rest.tail)
      else (readMembers fuel rest).map fun r => (.object r.1, r.2)
    else (readNumber (c :: rest)).map fun r => (.integer r.1, r.2)

/-- Read the elements of an array up to its end. -/
def readElements : ℕ → List Char → Option (List CanonicalValue × List Char)
  | 0, _ => none
  | fuel + 1, cs => do
    let (value, rest) ← readValue fuel cs
    if rest.head? = some ']' then return ([value], rest.tail)
    else (readElements fuel rest.tail).map fun r => (value :: r.1, r.2)

/-- Read the members of an object up to its end. -/
def readMembers : ℕ → List Char → Option (List (String × CanonicalValue) × List Char)
  | 0, _ => none
  | fuel + 1, cs => do
    let (member, rest) ← readMember fuel cs
    if rest.head? = some (Char.ofNat 125) then return ([member], rest.tail)
    else (readMembers fuel rest.tail).map fun r => (member :: r.1, r.2)

/-- Read a key and its value, with the colon between them. -/
def readMember : ℕ → List Char → Option ((String × CanonicalValue) × List Char)
  | 0, _ => none
  | fuel + 1, cs => do
    let (key, rest) ← readChars cs.length cs.tail
    let (value, rest) ← readValue fuel rest.tail
    return ((String.ofList key, value), rest)

end

/-- Escaping a text does not make it shorter. -/
theorem length_le_escape (cs : List Char) : cs.length ≤ (cs.flatMap escapeChar).length := by
  induction cs with
  | nil => exact Nat.le_refl 0
  | cons c cs ih =>
    have hpos : 0 < (escapeChar c).length := by
      have h := (readChar_escape c []).1
      cases hescape : escapeChar c with
      | nil =>
        rw [hescape] at h
        cases h
      | cons e es => simp
    rw [List.flatMap_cons, List.length_append, List.length_cons]
    omega

/-- The first character of a number is one by which a reader tells numbers from other values. -/
theorem decimalInt_eq_cons (n : ℤ) : ∃ c cs, decimalInt n = c :: cs ∧ isNumeric c = true := by
  unfold decimalInt
  split
  · exact ⟨_, _, rfl, by decide⟩
  · obtain ⟨c, cs, hcons, hdigit⟩ := toDigits_eq_cons n.natAbs
    exact ⟨c, cs, hcons, by rw [isNumeric, hdigit, Bool.true_or]⟩

/-- The text of a value does not start with a closing bracket. -/
theorem encode_head (value : CanonicalValue) :
    ∃ c cs, value.encode = c :: cs ∧ c ≠ ']' := by
  cases value with
  | null => exact ⟨_, _, rfl, by decide⟩
  | bool b => cases b <;> exact ⟨_, _, rfl, by decide⟩
  | integer n =>
    obtain ⟨c, cs, hcons, hnumeric⟩ := decimalInt_eq_cons n
    refine ⟨c, cs, by rw [encode, hcons], ?_⟩
    rintro rfl
    exact absurd hnumeric (by decide)
  | string text => exact ⟨_, _, rfl, by decide⟩
  | array values => exact ⟨_, _, rfl, by decide⟩
  | object ms => exact ⟨_, _, rfl, by decide⟩

/-- Reading a key consumes it and nothing behind its closing mark. -/
theorem readChars_key (key : String) (rest : List Char) :
    readChars (encodeString key ++ rest).length (encodeString key ++ rest).tail =
      some (key.toList, rest) := by
  have hlength := length_le_escape key.toList
  rw [encodeString, List.append_assoc, List.append_assoc]
  refine readChars_escape key.toList rest ?_
  simp only [List.length_append, List.length_singleton]
  omega

mutual

/-- The text of a value reads back. -/
theorem readValue_encode (value : CanonicalValue) (fuel : ℕ) (rest : List Char)
    (hfuel : value.encode.length < fuel) (hrest : Delimited rest) :
    readValue fuel (value.encode ++ rest) = some (value, rest) := by
  obtain ⟨fuel, rfl⟩ : ∃ n, fuel = n + 1 := ⟨fuel - 1, by omega⟩
  cases value with
  | null => rfl
  | bool b => cases b <;> rfl
  | integer n =>
    obtain ⟨c, cs, hcons, hnumeric⟩ := decimalInt_eq_cons n
    have hread := readNumber_decimalInt n hrest
    have hne : ∀ d, isNumeric d = false → c ≠ d := by
      rintro d hd rfl
      rw [hnumeric] at hd
      cases hd
    rw [encode, hcons, List.cons_append] at *
    rw [readValue, if_neg (hne _ (by decide)), if_neg (hne _ (by decide)),
      if_neg (hne _ (by decide)), if_neg (hne _ (by decide)), if_neg (hne _ (by decide)),
      if_neg (hne _ (by decide)), hread]
    rfl
  | string text =>
    have hlength := length_le_escape text.toList
    have hchars : readChars ((text.toList.flatMap escapeChar ++ Char.ofNat 34 :: rest).length + 1)
        (text.toList.flatMap escapeChar ++ Char.ofNat 34 :: rest) = some (text.toList, rest) :=
      readChars_escape text.toList rest (by simp only [List.length_append]; omega)
    rw [encode, encodeString, List.append_assoc, List.append_assoc]
    change (readChars ((text.toList.flatMap escapeChar ++ Char.ofNat 34 :: rest).length + 1)
      (text.toList.flatMap escapeChar ++ Char.ofNat 34 :: rest)).map _ = _
    rw [hchars, Option.map_some, String.ofList_toList]
  | array values =>
    rw [encode, List.append_assoc, List.append_assoc]
    rw [encode, List.length_append, List.length_append, List.length_singleton,
      List.length_singleton] at hfuel
    cases values with
    | nil => rfl
    | cons value values =>
      obtain ⟨c, cs, hcons, hne⟩ := encode_head value
      have hread := readElements_encode (value :: values) (List.cons_ne_nil _ _) fuel rest
        (by omega)
      have hhead : (encodeList (value :: values) ++ ([']'] ++ rest)).head? ≠ some ']' := by
        have hlist : ∃ tail, encodeList (value :: values) = c :: tail := by
          unfold encodeList
          split
          · exact ⟨cs, hcons⟩
          · rw [hcons]
            exact ⟨_, rfl⟩
        obtain ⟨tail, htail⟩ := hlist
        rw [htail]
        exact fun heq => hne (Option.some.inj heq)
      change (if (encodeList (value :: values) ++ ([']'] ++ rest)).head? = some ']' then _ else
        (readElements fuel (encodeList (value :: values) ++ ']' :: rest)).map _) = _
      rw [if_neg hhead, hread]
      rfl
  | object ms =>
    rw [encode, List.append_assoc, List.append_assoc]
    rw [encode, List.length_append, List.length_append, List.length_singleton,
      List.length_singleton] at hfuel
    cases ms with
    | nil => rfl
    | cons member ms =>
      have hread := readMembers_encode (member :: ms) (List.cons_ne_nil _ _) fuel rest
        (by omega)
      have hhead : (encodeMembers (member :: ms) ++ ([Char.ofNat 125] ++ rest)).head? ≠
          some (Char.ofNat 125) := by
        have hlist : ∃ tail, encodeMembers (member :: ms) = Char.ofNat 34 :: tail := by
          obtain ⟨key, value⟩ := member
          unfold encodeMembers
          split <;> exact ⟨_, rfl⟩
        obtain ⟨tail, htail⟩ := hlist
        rw [htail]
        exact fun heq => absurd (Option.some.inj heq) (by decide)
      change (if (encodeMembers (member :: ms) ++ ([Char.ofNat 125] ++ rest)).head? =
        some (Char.ofNat 125) then _ else
        (readMembers fuel (encodeMembers (member :: ms) ++ Char.ofNat 125 :: rest)).map _) = _
      rw [if_neg hhead, hread]
      rfl
termination_by structural value

/-- The text of a nonempty array reads back up to its end. -/
theorem readElements_encode (values : List CanonicalValue) (hne : values ≠ []) (fuel : ℕ)
    (rest : List Char) (hfuel : (encodeList values).length + 1 < fuel) :
    readElements fuel (encodeList values ++ ']' :: rest) = some (values, rest) := by
  obtain ⟨fuel, rfl⟩ : ∃ n, fuel = n + 1 := ⟨fuel - 1, by omega⟩
  match values with
  | [] => exact absurd rfl hne
  | [value] =>
    rw [encodeList] at hfuel ⊢
    have hread := readValue_encode value fuel (']' :: rest) (by omega) (by
      rintro c hc
      cases hc
      decide)
    rw [readElements, hread]
    rfl
  | value :: next :: values =>
    rw [encodeList, List.length_append, List.length_append, List.length_singleton] at hfuel
    have hread := readValue_encode value fuel
      (',' :: (encodeList (next :: values) ++ ']' :: rest)) (by omega) (by
        rintro c hc
        cases hc
        decide)
    have hrest := readElements_encode (next :: values) (List.cons_ne_nil _ _) fuel rest
      (by omega)
    rw [encodeList, List.append_assoc, List.append_assoc]
    rw [readElements]
    change (readValue fuel (value.encode ++ ',' :: (encodeList (next :: values) ++ ']' :: rest))
      >>= _) = _
    rw [hread, Option.bind_eq_bind, Option.bind_some]
    change (if some ',' = some ']' then _ else (readElements fuel
      (encodeList (next :: values) ++ ']' :: rest)).map _) = _
    rw [if_neg (by decide), hrest]
    rfl
termination_by structural values

/-- The text of a nonempty object reads back up to its end. -/
theorem readMembers_encode (ms : List (String × CanonicalValue)) (hne : ms ≠ []) (fuel : ℕ)
    (rest : List Char) (hfuel : (encodeMembers ms).length + 1 < fuel) :
    readMembers fuel (encodeMembers ms ++ Char.ofNat 125 :: rest) = some (ms, rest) := by
  obtain ⟨fuel, rfl⟩ : ∃ n, fuel = n + 1 := ⟨fuel - 1, by omega⟩
  match ms with
  | [] => exact absurd rfl hne
  | [member] =>
    rw [encodeMembers] at hfuel ⊢
    have hread := readMember_encode member fuel (Char.ofNat 125 :: rest) (by omega) (by
      rintro c hc
      cases hc
      decide)
    rw [readMembers, hread]
    rfl
  | member :: next :: ms =>
    rw [encodeMembers, List.length_append, List.length_append, List.length_singleton] at hfuel
    have hread := readMember_encode member fuel
      (',' :: (encodeMembers (next :: ms) ++ Char.ofNat 125 :: rest)) (by omega) (by
        rintro c hc
        cases hc
        decide)
    have hrest := readMembers_encode (next :: ms) (List.cons_ne_nil _ _) fuel rest (by omega)
    rw [encodeMembers, List.append_assoc, List.append_assoc, readMembers]
    change (readMember fuel (encodeMember member ++ ',' :: (encodeMembers (next :: ms) ++
      Char.ofNat 125 :: rest)) >>= _) = _
    rw [hread, Option.bind_eq_bind, Option.bind_some]
    change (if some ',' = some (Char.ofNat 125) then _ else (readMembers fuel
      (encodeMembers (next :: ms) ++ Char.ofNat 125 :: rest)).map _) = _
    rw [if_neg (by decide), hrest]
    rfl
termination_by structural ms

/-- The text of a member reads back. -/
theorem readMember_encode (member : String × CanonicalValue) (fuel : ℕ) (rest : List Char)
    (hfuel : (encodeMember member).length ≤ fuel) (hrest : Delimited rest) :
    readMember fuel (encodeMember member ++ rest) = some (member, rest) := by
  match member with
  | (key, value) =>
    rw [encodeMember, List.length_append, List.length_append, List.length_singleton] at hfuel
    obtain ⟨fuel, rfl⟩ : ∃ n, fuel = n + 1 := ⟨fuel - 1, by omega⟩
    have hkey : 2 ≤ (encodeString key).length := by
      rw [encodeString, List.length_append, List.length_append, List.length_singleton]
      omega
    have hread := readValue_encode value fuel rest (by omega) hrest
    rw [encodeMember, List.append_assoc, List.append_assoc, readMember, readChars_key,
      Option.bind_eq_bind, Option.bind_some]
    change (readValue fuel (value.encode ++ rest) >>= _) = _
    rw [hread, Option.bind_eq_bind, Option.bind_some, String.ofList_toList]
    rfl
termination_by structural member

end

/-- A value is determined by its text. -/
theorem encode_injective {a b : CanonicalValue} (h : a.encode = b.encode) : a = b := by
  have ha := readValue_encode a (a.encode.length + 1) [] (Nat.lt_succ_self _) (by simp [Delimited])
  have hb := readValue_encode b (a.encode.length + 1) [] (by rw [h]; exact Nat.lt_succ_self _)
    (by simp [Delimited])
  rw [h] at ha
  rw [h, ha] at hb
  cases hb
  rfl

/-- The text of a value is in UTF-8. -/
theorem bytes_eq_utf8 (value : CanonicalValue) :
    value.bytes = Cbor.utf8 (String.ofList value.encode) := by
  rw [Cbor.utf8, String.toByteArray_ofList, List.utf8Encode, List.data_toByteArray, bytes]

/-- A value is determined by the bytes of its text. -/
theorem bytes_injective {a b : CanonicalValue} (h : a.bytes = b.bytes) : a = b := by
  rw [bytes_eq_utf8, bytes_eq_utf8] at h
  have htext := Cbor.fromUTF8?_utf8 (String.ofList a.encode)
  rw [h, Cbor.fromUTF8?_utf8, Option.some.injEq, String.ofList_inj] at htext
  exact encode_injective htext.symm

end CanonicalValue

end Otmp
