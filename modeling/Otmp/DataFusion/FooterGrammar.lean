import Mathlib.Tactic.Ring
import Otmp.DataFusion.FooterBounds

/-!
# The bounds check accepts the grammar

Each part of the walk recognizes its part of the grammar. The comparison of a count with the
remaining bytes is passed by every list and map of the grammar, because each of its values takes
a byte, so the walk accepts the grammar and nothing else.
-/

namespace Otmp.DataFusion.FooterBounds

open Foundation CompactThrift

variable {bytes : Bytes}

/-- The upper half of a byte, as the field's distance. -/
private theorem toNat_high (header : UInt8) : (header >>> 4).toNat = header.toNat / 16 := by
  rw [UInt8.toNat_shiftRight, Nat.shiftRight_eq_div_pow]
  rfl

/-- The lower half of a byte, as the field's type. -/
private theorem toNat_low (header : UInt8) : (header &&& 15).toNat = header.toNat % 16 := by
  rw [UInt8.toNat_and]
  exact Nat.and_two_pow_sub_one_eq_mod header.toNat 4

/-- A group of seven bits is put above the groups that are read. -/
private theorem toNat_or_group {value : UInt64} {b : UInt8} {group : ℕ} (hgroup : group < 10)
    (hvalue : value.toNat < 2 ^ (7 * group)) (hb : group = 9 → b.toNat ≤ 1) :
    (value ||| ((b &&& 127).toUInt64 <<< UInt64.ofNat (7 * group))).toNat =
      value.toNat + b.toNat % 128 * 2 ^ (7 * group) := by
  have hbits : (b &&& 127).toNat = b.toNat % 128 := by
    rw [UInt8.toNat_and]
    exact Nat.and_two_pow_sub_one_eq_mod b.toNat 7
  have hshift : (UInt64.ofNat (7 * group)).toNat = 7 * group := by
    rw [UInt64.toNat_ofNat']
    omega
  have hfits : b.toNat % 128 * 2 ^ (7 * group) < 2 ^ 64 := by
    obtain hlt | rfl : group < 9 ∨ group = 9 := by omega
    · have hpow : 2 ^ (7 * group) ≤ 2 ^ 56 := Nat.pow_le_pow_right (by omega) (by omega)
      have hmod := Nat.mod_lt b.toNat (show 128 > 0 by omega)
      calc b.toNat % 128 * 2 ^ (7 * group) ≤ 128 * 2 ^ 56 := Nat.mul_le_mul (by omega) hpow
        _ < 2 ^ 64 := by omega
    · have hone := hb rfl
      have hmod : b.toNat % 128 ≤ 1 := Nat.le_trans (Nat.mod_le _ _) hone
      calc b.toNat % 128 * 2 ^ (7 * 9) ≤ 1 * 2 ^ 63 := Nat.mul_le_mul_right _ hmod
        _ < 2 ^ 64 := by omega
  rw [UInt64.toNat_or, UInt64.toNat_shiftLeft, UInt8.toNat_toUInt64, hbits, hshift,
    Nat.mod_eq_of_lt (show 7 * group < 64 by omega), Nat.shiftLeft_eq, Nat.mod_eq_of_lt hfits,
    Nat.or_comm, ← Nat.shiftLeft_eq, ← Nat.shiftLeft_add_eq_or_of_lt hvalue, Nat.add_comm]

/-- A count that all members of a language admit changes nothing. -/
theorem recognizes_count {n : ℕ} {step : ℕ → ℕ → Except (Fault ParquetError) ℕ}
    {L : List UInt8 → Prop} (h : Recognizes bytes (step n) L)
    (hle : ∀ ys, L ys → n ≤ ys.length) :
    Recognizes bytes (fun start => count bytes n start >>= fun n => step n start) L := by
  have hcount : ∀ {start}, start ≤ bytes.length →
      (count bytes n start >>= fun n => step n start) =
        if bytes.length - start < n then .error (.refused invalid) else step n start := by
    intro start hstart
    rw [count, ok_bind (subOrPanic_eq hstart)]
    split
    · next hlt => rw [refuseIf_bind hlt]; rfl
    · next hlt => rw [passed_bind hlt]; rfl
  refine ⟨fun {start next} hstart => ?_, fun {start} hstart => ?_⟩
  · rw [hcount hstart, ite_error_eq_ok, h.ok hstart]
    refine and_iff_right_of_imp ?_
    rintro ⟨ys, hys, hat, -⟩
    have hfits := hat.le hstart
    have hn := hle ys hys
    omega
  · rw [hcount hstart]
    split
    · exact safe_refused _
    · exact h.safe hstart

section Parts

variable (hsize : bytes.length < 2 ^ 63)

include hsize

/-- A byte is read, or the footer ends here and is refused. -/
theorem parses_byte : Parses bytes (byte bytes) fun b enc => enc = [b] where
  ok := fun {start b next} hstart => by
    rw [byte, bind_eq_ok]
    simp only [orRefuse_eq_ok]
    constructor
    · rintro ⟨value, hvalue, h⟩
      obtain ⟨after, hafter, h⟩ := bind_eq_ok.mp h
      cases h
      exact ⟨[b], rfl, startsAt_singleton.mpr hvalue, addOrPanic_eq_ok hafter⟩
    · rintro ⟨_, rfl, hat, rfl⟩
      have hlt := hat.le hstart
      rw [List.length_singleton] at hlt
      refine ⟨b, startsAt_singleton.mp hat, ?_⟩
      rw [ok_bind (addOrPanic_eq (by unfold wordSize; omega))]
      rfl
  safe := fun {start} hstart => by
    refine (safe_orRefuse _).bind fun b hb => ?_
    have hlt := (startsAt_singleton.mpr (orRefuse_eq_ok.mp hb)).le hstart
    rw [List.length_singleton] at hlt
    exact (safe_add (by unfold wordSize; omega)).bind fun _ _ => safe_pure _

/-- Bytes are skipped when the footer has that many, whatever they are. -/
theorem recognizes_skip (count : ℕ) :
    Recognizes bytes (skip bytes count) fun enc => enc.length = count where
  ok := fun {start next} hstart => by
    rw [skip, orRefuse_eq_ok, Option.filter_eq_some_iff, checkedAdd_eq_some, decide_eq_true_eq]
    constructor
    · rintro ⟨⟨-, rfl⟩, hle⟩
      obtain ⟨hat, hlength⟩ := startsAt_slice hle
      exact ⟨_, hlength, hat, by rw [hlength]⟩
    · rintro ⟨ys, rfl, hat, rfl⟩
      have hle := hat.le hstart
      exact ⟨⟨by unfold wordSize; omega, rfl⟩, hle⟩
  safe := fun _ => safe_orRefuse _

/-- A number with one more group of seven bits, the way the reader puts it in front of those read.
-/
private def withGroup (group : ℕ) (value : UInt64) (b : UInt8) : UInt64 :=
  value ||| ((b &&& 127).toUInt64 <<< UInt64.ofNat (7 * group))

omit hsize in
/-- A number with one more group of seven bits stays below the next power of 128. -/
private theorem withGroup_lt {group : ℕ} {value : UInt64} {b : UInt8} (hgroup : group < 10)
    (hvalue : value.toNat < 2 ^ (7 * group)) (hb : group = 9 → b.toNat ≤ 1) :
    (withGroup group value b).toNat < 2 ^ (7 * (group + 1)) := by
  have hmod := Nat.mod_lt b.toNat (show 128 > 0 by omega)
  have hmul : b.toNat % 128 * 2 ^ (7 * group) ≤ 127 * 2 ^ (7 * group) :=
    Nat.mul_le_mul_right _ (by omega)
  rw [withGroup, toNat_or_group hgroup hvalue hb, Nat.mul_add, Nat.pow_add]
  omega

omit hsize in
/-- The last group of ten may hold one bit only. -/
private theorem last_bit_iff {group : ℕ} {b : UInt8} :
    ¬(7 * group = 63 ∧ b > 1) ↔ (group = 9 → b.toNat ≤ 1) := by
  rw [gt_iff_lt, UInt8.lt_iff_toNat_lt, not_and, not_lt]
  exact ⟨fun h hgroup => h (by omega), fun h hshift => h (by omega)⟩

/-- One group is read, and the next ones when it says that there are more. -/
private theorem integerFrom_succ {groups group start next : ℕ} {value v : UInt64}
    (hstart : start ≤ bytes.length) :
    integerFrom bytes (groups + 1) (7 * group) value start = .ok (v, next) ↔
      ∃ b, StartsAt bytes start [b] ∧ (group = 9 → b.toNat ≤ 1) ∧
        (b.toNat < 128 ∧ v = withGroup group value b ∧ next = start + 1 ∨
          128 ≤ b.toNat ∧ integerFrom bytes groups (7 * (group + 1)) (withGroup group value b)
            (start + 1) = .ok (v, next)) := by
  have hlow : ∀ {b : UInt8}, b < 128 ↔ b.toNat < 128 := UInt8.lt_iff_toNat_lt
  rw [integerFrom, bind_eq_ok]
  constructor
  · rintro ⟨⟨b, middle⟩, hbyte, h⟩
    obtain ⟨_, rfl, hat, rfl⟩ := ((parses_byte hsize).ok hstart).mp hbyte
    obtain ⟨_, hguard, h⟩ := bind_eq_ok.mp h
    refine ⟨b, hat, last_bit_iff.mp (refuseIf_eq_ok.mp hguard), ?_⟩
    split at h
    · next hlast =>
      cases h
      exact .inl ⟨hlow.mp hlast, rfl, rfl⟩
    · next hlast => exact .inr ⟨not_lt.mp fun hlt => hlast (hlow.mpr hlt), h⟩
  · rintro ⟨b, hat, hb, hrest⟩
    refine ⟨(b, start + 1), ((parses_byte hsize).ok hstart).mpr ⟨[b], rfl, hat, rfl⟩, ?_⟩
    dsimp only
    rw [passed_bind (last_bit_iff.mpr hb)]
    obtain ⟨hlast, rfl, rfl⟩ | ⟨hmore, hrest⟩ := hrest
    · rw [if_pos (hlow.mpr hlast)]
      rfl
    · rw [if_neg fun hlast => not_lt.mpr hmore (hlow.mp hlast)]
      exact hrest

/-- The groups of a number are read from a given group on. -/
private theorem integerFrom_eq_ok (groups group : ℕ) {start next : ℕ} {value v : UInt64}
    (hgroups : groups + group = 10) (hvalue : value.toNat < 2 ^ (7 * group))
    (hstart : start ≤ bytes.length) :
    integerFrom bytes groups (7 * group) value start = .ok (v, next) ↔
      ∃ enc n, Varint group enc n ∧ StartsAt bytes start enc ∧ next = start + enc.length ∧
        v.toNat = value.toNat + n * 2 ^ (7 * group) := by
  induction groups generalizing group start value with
  | zero =>
    refine iff_of_false (fun h => nomatch h) ?_
    rintro ⟨enc, n, hvarint, -⟩
    cases hvarint <;> omega
  | succ groups ih =>
    have hgroup : group < 10 := by omega
    have hsum : ∀ {b : UInt8} (n : ℕ), (group = 9 → b.toNat ≤ 1) →
        (withGroup group value b).toNat + n * 2 ^ (7 * (group + 1)) =
          value.toNat + (b.toNat % 128 + 128 * n) * 2 ^ (7 * group) := by
      intro b n hb
      rw [withGroup, toNat_or_group hgroup hvalue hb, Nat.mul_add, Nat.pow_add]
      ring
    have hmore : ∀ {b : UInt8}, StartsAt bytes start [b] → (group = 9 → b.toNat ≤ 1) → _ :=
      fun {b} hat hb => ih (group + 1) (by omega) (withGroup_lt hgroup hvalue hb) (hat.le hstart)
    rw [integerFrom_succ hsize hstart]
    constructor
    · rintro ⟨b, hat, hb, ⟨hlast, rfl, rfl⟩ | ⟨hlast, hrest⟩⟩
      · refine ⟨[b], b.toNat, .last hgroup hlast hb, hat, rfl, ?_⟩
        rw [withGroup, toNat_or_group hgroup hvalue hb, Nat.mod_eq_of_lt hlast]
      · obtain ⟨enc, n, hvarint, hat', rfl, hv⟩ := (hmore hat hb).mp hrest
        have hnine : group < 9 := by
          by_contra hnine
          have hbit := hb (by omega)
          omega
        refine ⟨b :: enc, _, .more hnine hlast hvarint, startsAt_append.mpr ⟨hat, hat'⟩, ?_, ?_⟩
        · simp only [List.length_cons, List.length_nil]
          omega
        · rw [hv, hsum n hb]
    · rintro ⟨enc, n, hvarint, hat, rfl, hv⟩
      cases hvarint with
      | @last _ b _ hlast hb =>
        refine ⟨b, hat, hb, .inl ⟨hlast, ?_, rfl⟩⟩
        rw [← UInt64.toNat_inj, hv, withGroup, toNat_or_group hgroup hvalue hb,
          Nat.mod_eq_of_lt hlast]
      | @more _ n b rest hnine hlast hrest =>
        have hb : group = 9 → b.toNat ≤ 1 := fun h => absurd h (by omega)
        obtain ⟨hfirst, hat'⟩ :=
          startsAt_append.mp (show StartsAt bytes start ([b] ++ rest) from hat)
        refine ⟨b, hfirst, hb, .inr ⟨hlast, (hmore hfirst hb).mpr ⟨rest, n, hrest, hat', ?_, ?_⟩⟩⟩
        · simp only [List.length_cons, List.length_nil]
          omega
        · rw [hv, hsum n hb]

/-- Reading the groups of a number does not panic. -/
private theorem safe_integerFrom (groups shift : ℕ) {start : ℕ} (value : UInt64)
    (hstart : start ≤ bytes.length) : Safe (integerFrom bytes groups shift value start) := by
  induction groups generalizing shift start value with
  | zero => exact safe_refused _
  | succ groups ih =>
    refine ((parses_byte hsize).safe hstart).bind fun ⟨b, middle⟩ hbyte => ?_
    obtain ⟨_, rfl, hat, rfl⟩ := ((parses_byte hsize).ok hstart).mp hbyte
    refine (safe_refuseIf _).bind fun _ _ => ?_
    split
    · exact safe_pure _
    · exact ih _ _ (hat.le hstart)

/-- A number is read from an encoding of at most ten groups of seven bits. -/
theorem parses_integer : Parses bytes (integer bytes) fun v enc => Varint 0 enc v.toNat where
  ok := fun {start v next} hstart => by
    rw [integer]
    refine (integerFrom_eq_ok hsize 10 0 (by omega) (by decide) hstart).trans ⟨?_, ?_⟩
    · rintro ⟨enc, n, hvarint, hat, hnext, hv⟩
      obtain rfl : v.toNat = n := by simpa using hv
      exact ⟨enc, hvarint, hat, hnext⟩
    · rintro ⟨enc, hvarint, hat, hnext⟩
      exact ⟨enc, _, hvarint, hat, hnext, by simp⟩
  safe := fun hstart => safe_integerFrom hsize 10 0 0 hstart

/-- A count that is doubled first changes nothing either: what does not fit a word does not fit the
buffer. -/
theorem recognizes_doubled {n : ℕ} {step : ℕ → ℕ → Except (Fault ParquetError) ℕ}
    {L : List UInt8 → Prop} (h : Recognizes bytes (step (n * 2)) L)
    (hle : ∀ ys, L ys → n * 2 ≤ ys.length) :
    Recognizes bytes (fun start => orRefuse invalid (checkedMul n 2) >>= fun doubled =>
      count bytes doubled start >>= fun n => step n start) L := by
  by_cases hfits : n * 2 < wordSize
  · rw [checkedMul, if_pos hfits]
    exact recognizes_count h hle
  · rw [checkedMul, if_neg hfits]
    refine ⟨fun {start next} hstart => iff_of_false (fun h => by cases h) ?_,
      fun _ => safe_refused _⟩
    rintro ⟨ys, hys, hat, -⟩
    have hend := hat.le hstart
    have hn := hle ys hys
    unfold wordSize at hfits
    omega

/-- The fields of a struct with the values that a language admits behind each header. -/
inductive FieldsOf (V : UInt8 → List UInt8 → Prop) : List UInt8 → Prop
  | stop : FieldsOf V [0]
  | field {header : UInt8} {id enc rest : List UInt8} : header ≠ 0 → FieldId header id →
      V header enc → FieldsOf V rest → FieldsOf V (header :: (id ++ (enc ++ rest)))

/-- The size of a list is read. -/
theorem parses_listSize (header : UInt8) :
    Parses bytes (listSize bytes header) fun v enc => ListSize header enc v.toNat := by
  have hhigh : header >>> 4 = 15 ↔ header.toNat / 16 = 15 := by
    rw [← UInt8.toNat_inj, toNat_high]
    rfl
  by_cases h : header >>> 4 = 15
  · have hunfold : listSize bytes header = integer bytes := funext fun start => if_pos h
    rw [hunfold]
    refine (parses_integer hsize).congr fun v ys => ⟨fun hvarint => .long (hhigh.mp h) hvarint, ?_⟩
    generalize v.toNat = n
    intro hlist
    cases hlist with
    | short hne => exact absurd (hhigh.mp h) hne
    | long _ hvarint => exact hvarint
  · have hunfold : listSize bytes header =
        fun start => .ok ((header >>> 4).toUInt64, start) := funext fun start => if_neg h
    have hcount : (header >>> 4).toUInt64.toNat = header.toNat / 16 := by
      rw [UInt8.toNat_toUInt64, toNat_high]
    rw [hunfold]
    refine (Parses.give _).congr fun v ys => ⟨?_, ?_⟩
    · rintro ⟨rfl, rfl⟩
      rw [hcount]
      exact .short fun heq => h (hhigh.mpr heq)
    · generalize hn : v.toNat = n
      intro hlist
      cases hlist with
      | short _ => exact ⟨UInt64.toNat_inj.mp (hn.trans hcount.symm), rfl⟩
      | long heq _ => exact absurd (hhigh.mpr heq) h

/-- The identifier of a field is skipped. -/
theorem recognizes_fieldId (header : UInt8) :
    Recognizes bytes (fieldId bytes header) (FieldId header) := by
  have hhigh : header >>> 4 = 0 ↔ header.toNat / 16 = 0 := by
    rw [← UInt8.toNat_inj, toNat_high]
    rfl
  by_cases h : header >>> 4 = 0
  · have hunfold : fieldId bytes header = fun start => (integer bytes start).map Prod.snd :=
      funext fun start => if_pos h
    rw [hunfold]
    refine (parses_integer hsize).drop.congr fun ys => ⟨?_, ?_⟩
    · rintro ⟨v, hvarint⟩
      exact .long (hhigh.mp h) hvarint
    · intro hid
      cases hid with
      | short hne => exact absurd (hhigh.mp h) hne
      | @long _ n _ hvarint =>
        refine ⟨UInt64.ofNat n, ?_⟩
        rwa [UInt64.toNat_ofNat', Nat.mod_eq_of_lt hvarint.lt]
  · have hunfold : fieldId bytes header = .ok := funext fun start => if_neg h
    rw [hunfold]
    refine Recognizes.stay.congr fun ys => ⟨?_, ?_⟩
    · rintro rfl
      exact .short fun heq => h (hhigh.mpr heq)
    · intro hid
      cases hid with
      | short _ => rfl
      | long heq _ => exact absurd (hhigh.mpr heq) h

/-- The fields of a struct are recognized in enough passes. -/
private theorem fields_spec {value : UInt8 → ℕ → Except (Fault ParquetError) ℕ}
    {V : UInt8 → List UInt8 → Prop} (hvalue : ∀ header, Recognizes bytes (value header) (V header))
    (passes : ℕ) {start : ℕ} (hstart : start ≤ bytes.length)
    (hpasses : bytes.length - start < passes) :
    (∀ next, fields bytes value passes start = .ok next ↔
      ∃ ys, FieldsOf V ys ∧ StartsAt bytes start ys ∧ next = start + ys.length) ∧
      Safe (fields bytes value passes start) := by
  induction passes generalizing start with
  | zero => omega
  | succ passes ih =>
    have hfield : ∀ header, Recognizes bytes _ _ :=
      fun header => (recognizes_fieldId hsize header).seq (hvalue header)
    have hbyte : ∀ {header next}, byte bytes start = .ok (header, next) ↔
        StartsAt bytes start [header] ∧ next = start + 1 := by
      intro header next
      rw [(parses_byte hsize).ok hstart]
      simp
    have hnext : ∀ {header : UInt8}, StartsAt bytes start [header] → start + 1 ≤ bytes.length :=
      fun hat => hat.le hstart
    have hrest : ∀ {front : List UInt8}, start + 1 ≤ bytes.length →
        StartsAt bytes (start + 1) front → _ :=
      fun {front} hle hat => ih (hat.le hle) (by omega)
    rw [fields]
    constructor
    · intro last
      rw [bind_eq_ok]
      constructor
      · rintro ⟨⟨header, next⟩, hread, h⟩
        obtain ⟨hat, rfl⟩ := hbyte.mp hread
        dsimp only at h
        split at h
        · next hzero =>
          cases h
          subst hzero
          exact ⟨[0], .stop, hat, rfl⟩
        · next hne =>
          rw [← bind_assoc] at h
          obtain ⟨middle, hmiddle, h⟩ := bind_eq_ok.mp h
          obtain ⟨_, ⟨id, enc, rfl, hid, henc⟩, hat', rfl⟩ :=
            ((hfield header).ok (hnext hat)).mp hmiddle
          obtain ⟨rest, hfields, hat'', rfl⟩ := ((hrest (hnext hat) hat').1 last).mp h
          refine ⟨header :: (id ++ (enc ++ rest)), .field hne hid henc hfields, ?_, ?_⟩
          · rw [← List.append_assoc]
            exact startsAt_append.mpr ⟨hat, startsAt_append.mpr ⟨hat', hat''⟩⟩
          · simp only [List.length_cons, List.length_append]
            omega
      · rintro ⟨_, hfields, hat, rfl⟩
        cases hfields with
        | stop => exact ⟨(0, start + 1), hbyte.mpr ⟨hat, rfl⟩, rfl⟩
        | @field header id enc rest hne hid henc hfields =>
          rw [← List.append_assoc] at hat
          obtain ⟨hat, hat'⟩ := startsAt_append.mp
            (show StartsAt bytes start ([header] ++ (id ++ enc ++ rest)) from hat)
          obtain ⟨hat', hat''⟩ := startsAt_append.mp hat'
          refine ⟨(header, start + 1), hbyte.mpr ⟨hat, rfl⟩, ?_⟩
          dsimp only
          rw [if_neg hne, ← bind_assoc, bind_eq_ok]
          refine ⟨_, ((hfield header).ok (hnext hat)).mpr
            ⟨_, ⟨id, enc, rfl, hid, henc⟩, hat', rfl⟩, ?_⟩
          refine ((hrest (hnext hat) hat').1 _).mpr ⟨rest, hfields, hat'', ?_⟩
          simp only [List.length_cons, List.length_append]
          omega
    · refine ((parses_byte hsize).safe hstart).bind fun ⟨header, next⟩ hread => ?_
      obtain ⟨hat, rfl⟩ := hbyte.mp hread
      dsimp only
      split
      · exact safe_pure _
      · rw [← bind_assoc]
        refine ((hfield header).safe (hnext hat)).bind fun middle hmiddle => ?_
        obtain ⟨front, -, hat', rfl⟩ := ((hfield header).ok (hnext hat)).mp hmiddle
        exact (hrest (hnext hat) hat').2

/-- The walk over a struct recognizes its fields. -/
theorem recognizes_fields {value : UInt8 → ℕ → Except (Fault ParquetError) ℕ}
    {V : UInt8 → List UInt8 → Prop}
    (hvalue : ∀ header, Recognizes bytes (value header) (V header)) :
    Recognizes bytes (fun start => fields bytes value (bytes.length - start + 1) start)
      (FieldsOf V) where
  ok := fun hstart => (fields_spec hsize hvalue _ hstart (by omega)).1 _
  safe := fun hstart => (fields_spec hsize hvalue _ hstart (by omega)).2

/-- The encodings of a value, whatever counts and lengths it declares. -/
def IsValue (kind : ℕ) (field : Bool) (depth : ℕ) (enc : List UInt8) : Prop :=
  ∃ decls, Value 64 kind field depth enc decls

omit hsize in
/-- Repeated values of one type are a sequence of encodings with the declarations they make. -/
theorem repeated_iff {kind depth n : ℕ} {ys : List UInt8} :
    Repeated (IsValue kind false depth) n ys ↔
      ∃ decls, Many 64 (List.replicate n kind) depth ys decls := by
  constructor
  · intro h
    induction h with
    | zero => exact ⟨[], .nil⟩
    | succ hfirst _ ih =>
      obtain ⟨decls, hvalue⟩ := hfirst
      obtain ⟨more, hmany⟩ := ih
      exact ⟨_, .cons hvalue hmany⟩
  · rintro ⟨decls, hmany⟩
    induction n generalizing ys decls with
    | zero =>
      cases hmany
      exact .zero
    | succ n ih =>
      cases hmany with
      | cons hvalue hrest => exact .succ ⟨_, hvalue⟩ (ih _ hrest)

omit hsize in
/-- Repeated keys and values are a sequence of encodings of the two types in turn. -/
theorem repeated_pair_iff {key value depth n : ℕ} {ys : List UInt8} :
    Repeated (fun ys => ∃ front rest, ys = front ++ rest ∧ IsValue key false depth front ∧
        IsValue value false depth rest) n ys ↔
      ∃ decls, Many 64 (List.replicate n [key, value]).flatten depth ys decls := by
  constructor
  · intro h
    induction h with
    | zero => exact ⟨[], .nil⟩
    | succ hfirst _ ih =>
      obtain ⟨front, rest, rfl, ⟨_, hkey⟩, _, hvalue⟩ := hfirst
      obtain ⟨more, hmany⟩ := ih
      rw [List.append_assoc]
      exact ⟨_, .cons hkey (.cons hvalue hmany)⟩
  · rintro ⟨decls, hmany⟩
    induction n generalizing ys decls with
    | zero =>
      cases hmany
      exact .zero
    | succ n ih =>
      cases hmany with
      | cons hkey hrest =>
        cases hrest with
        | cons hvalue hrest =>
          rw [← List.append_assoc]
          exact .succ ⟨_, _, rfl, ⟨_, hkey⟩, _, hvalue⟩ (ih _ hrest)

omit hsize in
/-- The fields of a struct are encodings with the declarations they make. -/
theorem fieldsOf_iff {depth : ℕ} {ys : List UInt8} :
    FieldsOf (fun header => IsValue (header &&& 15).toNat true depth) ys ↔
      ∃ decls, Fields 64 depth ys decls := by
  constructor
  · intro h
    induction h with
    | stop => exact ⟨[], .stop⟩
    | field hne hid hvalue _ ih =>
      obtain ⟨_, hvalue⟩ := hvalue
      obtain ⟨_, hrest⟩ := ih
      rw [toNat_low] at hvalue
      exact ⟨_, .field hne hid hvalue hrest⟩
  · rintro ⟨decls, hfields⟩
    induction hn : ys.length using Nat.strongRecOn generalizing ys decls with
    | ind n ih =>
      cases hfields with
      | stop => exact .stop
      | field hne hid hvalue hrest =>
        rw [← toNat_low] at hvalue
        refine .field hne hid ⟨_, hvalue⟩ (ih _ ?_ _ hrest rfl)
        rw [← hn]
        simp only [List.length_cons, List.length_append]
        omega

section Kinds

variable {depth : ℕ} (hdepth : ¬depth > 64) (field : Bool)

include hdepth

/-- A boolean takes no byte as a field and one byte as an element. -/
private theorem recognizes_bool {kind : ℕ} (hkind : kind = 1 ∨ kind = 2) :
    Recognizes bytes (value bytes kind field depth) (IsValue kind field depth) := by
  cases field with
  | true =>
    have hvalue : value bytes kind true depth = .ok := by
      funext start
      obtain rfl | rfl := hkind <;> rw [value, dif_neg hdepth, if_pos rfl]
    rw [hvalue]
    refine Recognizes.stay.congr fun ys => ⟨?_, ?_⟩
    · rintro rfl
      exact ⟨[], .inlineBool (not_lt.mp hdepth) hkind⟩
    · rintro ⟨decls, h⟩
      cases h <;> first | rfl | omega
  | false =>
    have hvalue : value bytes kind false depth = fun start => byte bytes start >>= fun r =>
        refuseIf (¬(r.1 = 1 ∨ r.1 = 2)) invalid >>= fun _ => .ok r.2 := by
      funext start
      obtain rfl | rfl := hkind <;>
        rw [value, dif_neg hdepth, if_neg Bool.false_ne_true] <;> rfl
    rw [hvalue]
    refine ((parses_byte hsize).bind fun b =>
      Recognizes.stay.guarded (¬(b = 1 ∨ b = 2)) invalid).congr fun ys => ⟨?_, ?_⟩
    · rintro ⟨b, _, _, rfl, rfl, hb, rfl⟩
      exact ⟨[], .bool (not_lt.mp hdepth) hkind (not_not.mp hb)⟩
    · rintro ⟨decls, h⟩
      cases h with
      | @bool _ _ b _ _ hb => exact ⟨b, [b], [], rfl, rfl, not_not.mpr hb, rfl⟩
      | _ => omega

/-- An integer takes a varint whose bytes are not looked at further. -/
private theorem recognizes_integer {kind : ℕ} (hkind : kind = 4 ∨ kind = 5 ∨ kind = 6) :
    Recognizes bytes (value bytes kind field depth) (IsValue kind field depth) := by
  have hvalue : value bytes kind field depth = fun start => (integer bytes start).map Prod.snd := by
    funext start
    obtain rfl | rfl | rfl := hkind <;> rw [value, dif_neg hdepth]
  rw [hvalue]
  refine (parses_integer hsize).drop.congr fun ys => ⟨?_, ?_⟩
  · rintro ⟨v, hvarint⟩
    exact ⟨[], .integer (not_lt.mp hdepth) hkind hvarint⟩
  · rintro ⟨decls, h⟩
    cases h with
    | @integer _ _ n _ _ _ _ hvarint =>
      refine ⟨UInt64.ofNat n, ?_⟩
      rwa [UInt64.toNat_ofNat', Nat.mod_eq_of_lt hvarint.lt]
    | _ => omega

/-- The kinds of a fixed length take as many bytes as their length says. -/
private theorem recognizes_fixed {kind length : ℕ}
    (hkind : kind = 3 ∧ length = 1 ∨ kind = 7 ∧ length = 8 ∨ kind = 13 ∧ length = 16) :
    Recognizes bytes (value bytes kind field depth) (IsValue kind field depth) := by
  have hle := not_lt.mp hdepth
  have hvalue : value bytes kind field depth = skip bytes length := by
    funext start
    obtain ⟨rfl, rfl⟩ | ⟨rfl, rfl⟩ | ⟨rfl, rfl⟩ := hkind <;> rw [value, dif_neg hdepth]
  rw [hvalue]
  refine (recognizes_skip hsize length).congr fun ys => ⟨?_, ?_⟩
  · intro hlength
    obtain ⟨rfl, rfl⟩ | ⟨rfl, rfl⟩ | ⟨rfl, rfl⟩ := hkind
    · obtain ⟨b, rfl⟩ := List.length_eq_one_iff.mp hlength
      exact ⟨[], .byte hle⟩
    · exact ⟨[], .double hle hlength⟩
    · exact ⟨[], .uuid hle hlength⟩
  · rintro ⟨decls, h⟩
    cases h <;> first
      | omega
      | (obtain ⟨-, rfl⟩ | ⟨h, -⟩ | ⟨h, -⟩ := hkind <;> first | rfl | omega)

/-- A binary value takes its length and as many bytes. -/
private theorem recognizes_binary :
    Recognizes bytes (value bytes 8 field depth) (IsValue 8 field depth) := by
  have hvalue : value bytes 8 field depth = fun start => integer bytes start >>= fun r =>
      count bytes r.1.toNat r.2 >>= fun n => skip bytes n r.2 := by
    funext start
    rw [value, dif_neg hdepth]
  have hskip : ∀ n, Recognizes bytes
      (fun start => count bytes n start >>= fun n => skip bytes n start)
      fun enc => enc.length = n :=
    fun n => recognizes_count (recognizes_skip hsize n) fun ys hys => hys.ge
  rw [hvalue]
  refine ((parses_integer hsize).bind fun v => hskip v.toNat).congr fun ys => ⟨?_, ?_⟩
  · rintro ⟨v, size, payload, rfl, hvarint, hlength⟩
    rw [← hlength] at hvarint
    exact ⟨_, .binary (not_lt.mp hdepth) hvarint⟩
  · rintro ⟨decls, h⟩
    cases h with
    | @binary _ _ size payload _ hvarint =>
      have hlength : (UInt64.ofNat payload.length).toNat = payload.length := by
        rw [UInt64.toNat_ofNat', Nat.mod_eq_of_lt hvarint.lt]
      refine ⟨UInt64.ofNat payload.length, size, payload, rfl, ?_, hlength.symm⟩
      rwa [hlength]
    | _ => omega

section Nested

variable (hnested : ∀ kind field, Recognizes bytes (value bytes kind field (depth + 1))
  (IsValue kind field (depth + 1)))

include hnested

/-- A list takes its head and as many elements as the head says. -/
private theorem recognizes_list {kind : ℕ} (hkind : kind = 9 ∨ kind = 10) :
    Recognizes bytes (value bytes kind field depth) (IsValue kind field depth) := by
  have hvalue : value bytes kind field depth = fun start => byte bytes start >>= fun r =>
      listSize bytes r.1 r.2 >>= fun s => count bytes s.1.toNat s.2 >>= fun n =>
        repeatFrom (fun start => value bytes (r.1 &&& 15).toNat false (depth + 1) start) n s.2 := by
    funext start
    obtain rfl | rfl := hkind <;> rw [value, dif_neg hdepth]
  have helements : ∀ (header : UInt8) (n : ℕ), Recognizes bytes
      (fun start => count bytes n start >>= fun n =>
        repeatFrom (fun start => value bytes (header &&& 15).toNat false (depth + 1) start) n start)
      fun ys => ∃ decls, Many 64 (List.replicate n (header.toNat % 16)) (depth + 1) ys decls := by
    intro header n
    have hrepeat := (hnested (header &&& 15).toNat false).repeatFrom n
    refine recognizes_count (hrepeat.congr fun ys => ?_) ?_
    · rw [repeated_iff, toNat_low]
    · rintro ys ⟨decls, hmany⟩
      exact hmany.replicate_le
  rw [hvalue]
  refine ((parses_byte hsize).bind fun header => (parses_listSize hsize header).bind fun v =>
    helements header v.toNat).congr fun ys => ⟨?_, ?_⟩
  · rintro ⟨header, _, _, rfl, rfl, v, size, elements, rfl, hlist, decls, hmany⟩
    have hlist' : Value 64 kind field depth (header :: (size ++ elements)) _ :=
      .list (not_lt.mp hdepth) hkind hlist hmany
    exact ⟨_, hlist'⟩
  · rintro ⟨decls, h⟩
    cases h with
    | @list _ _ n _ header size elements decls _ _ hlist hmany =>
      have hn : (UInt64.ofNat n).toNat = n := by
        rw [UInt64.toNat_ofNat', Nat.mod_eq_of_lt hlist.lt]
      refine ⟨header, [header], size ++ elements, rfl, rfl, UInt64.ofNat n, size, elements, rfl,
        ?_, decls, ?_⟩
      · rwa [hn]
      · rwa [hn]
    | _ => omega

/-- A struct takes its fields and a stop byte. -/
private theorem recognizes_struct :
    Recognizes bytes (value bytes 12 field depth) (IsValue 12 field depth) := by
  have hvalue : value bytes 12 field depth = fun start => fields bytes
      (fun header start => value bytes (header &&& 15).toNat true (depth + 1) start)
      (bytes.length - start + 1) start := by
    funext start
    rw [value, dif_neg hdepth]
  rw [hvalue]
  refine (recognizes_fields hsize fun header =>
    hnested (header &&& 15).toNat true).congr fun ys => ?_
  rw [fieldsOf_iff]
  constructor
  · rintro ⟨decls, hfields⟩
    exact ⟨decls, .struct (not_lt.mp hdepth) hfields⟩
  · rintro ⟨decls, h⟩
    cases h with
    | struct _ hfields => exact ⟨_, hfields⟩
    | _ => omega

/-- A map takes its size, the two types and as many pairs. -/
private theorem recognizes_map :
    Recognizes bytes (value bytes 11 field depth) (IsValue 11 field depth) := by
  have hvalue : value bytes 11 field depth = fun start => integer bytes start >>= fun r =>
      (if r.1 = 0 then .ok r.2 else byte bytes r.2 >>= fun s =>
        orRefuse invalid (checkedMul r.1.toNat 2) >>= fun doubled =>
        count bytes doubled s.2 >>= fun n => repeatFrom (fun start =>
          value bytes (s.1 >>> 4).toNat false (depth + 1) start >>= fun next =>
            value bytes (s.1 &&& 15).toNat false (depth + 1) next) (n / 2) s.2) := by
    funext start
    rw [value, dif_neg hdepth]
    rfl
  have hentries : ∀ (kinds : UInt8) (n : ℕ), Recognizes bytes
      (fun start => orRefuse invalid (checkedMul n 2) >>= fun doubled =>
        count bytes doubled start >>= fun n => repeatFrom (fun start =>
          value bytes (kinds >>> 4).toNat false (depth + 1) start >>= fun next =>
            value bytes (kinds &&& 15).toNat false (depth + 1) next) (n / 2) start)
      fun ys => ∃ decls,
        Many 64 (List.replicate n [kinds.toNat / 16, kinds.toNat % 16]).flatten (depth + 1) ys
          decls := by
    intro kinds n
    have hpair := ((hnested (kinds >>> 4).toNat false).seq (hnested (kinds &&& 15).toNat false))
    have hrepeat := hpair.repeatFrom (n * 2 / 2)
    refine recognizes_doubled hsize (hrepeat.congr fun ys => ?_) ?_
    · rw [repeated_pair_iff, toNat_high, toNat_low, Nat.mul_div_cancel n Nat.two_pos]
    · rintro ys ⟨decls, hmany⟩
      rw [Nat.mul_comm]
      exact hmany.entries_le
  have hrest : ∀ v : UInt64, Recognizes bytes (fun start => if v = 0 then .ok start else
      byte bytes start >>= fun s => orRefuse invalid (checkedMul v.toNat 2) >>= fun doubled =>
        count bytes doubled s.2 >>= fun n => repeatFrom (fun start =>
          value bytes (s.1 >>> 4).toNat false (depth + 1) start >>= fun next =>
            value bytes (s.1 &&& 15).toNat false (depth + 1) next) (n / 2) s.2)
      fun ys => v = 0 ∧ ys = [] ∨ v ≠ 0 ∧ ∃ kinds entries decls, ys = kinds :: entries ∧
        Many 64 (List.replicate v.toNat [kinds.toNat / 16, kinds.toNat % 16]).flatten (depth + 1)
          entries decls := by
    intro v
    by_cases hzero : v = 0
    · simp only [if_pos hzero]
      exact Recognizes.stay.congr fun ys => by simp [hzero]
    · simp only [if_neg hzero]
      refine ((parses_byte hsize).bind fun kinds => hentries kinds v.toNat).congr fun ys => ⟨?_, ?_⟩
      · rintro ⟨kinds, _, entries, rfl, rfl, decls, hmany⟩
        exact .inr ⟨hzero, kinds, entries, decls, rfl, hmany⟩
      · rintro (⟨h, -⟩ | ⟨-, kinds, entries, decls, rfl, hmany⟩)
        · exact absurd h hzero
        · exact ⟨kinds, [kinds], entries, rfl, rfl, decls, hmany⟩
  have hle := not_lt.mp hdepth
  rw [hvalue]
  refine ((parses_integer hsize).bind hrest).congr fun ys => ⟨?_, ?_⟩
  · rintro ⟨v, size, _, rfl, hvarint, ⟨rfl, rfl⟩ | ⟨hne, kinds, entries, decls, rfl, hmany⟩⟩
    · rw [List.append_nil]
      exact ⟨_, .emptyMap hle hvarint⟩
    · have hpos : 0 < v.toNat := Nat.pos_of_ne_zero fun h => hne (UInt64.toNat_inj.mp h)
      exact ⟨_, .map hle hvarint hpos hmany⟩
  · rintro ⟨decls, h⟩
    cases h with
    | emptyMap _ hvarint => exact ⟨0, ys, [], (List.append_nil _).symm, hvarint, .inl ⟨rfl, rfl⟩⟩
    | @map _ _ n kinds size entries decls _ hvarint hpos hmany =>
      have hn : (UInt64.ofNat n).toNat = n := by
        rw [UInt64.toNat_ofNat', Nat.mod_eq_of_lt hvarint.lt]
      refine ⟨UInt64.ofNat n, size, kinds :: entries, rfl, ?_,
        .inr ⟨fun h => ?_, kinds, entries, decls, rfl, ?_⟩⟩
      · rwa [hn]
      · rw [h] at hn
        exact absurd hn hpos.ne
      · rwa [hn]
    | _ => omega

end Nested

end Kinds

/-- **The walk recognizes the grammar.** At every depth, a value is passed when the grammar admits
it there. -/
theorem recognizes_value (kind : ℕ) (field : Bool) (depth : ℕ) :
    Recognizes bytes (value bytes kind field depth) (IsValue kind field depth) := by
  induction hn : 65 - depth using Nat.strongRecOn generalizing kind field depth with
  | ind n ih =>
    by_cases hdepth : depth > 64
    · have hvalue : value bytes kind field depth = fun _ => .error (.refused invalid) := by
        funext start
        rw [value.eq_def, dif_pos hdepth]
      rw [hvalue]
      refine (Recognizes.refuse _).congr fun ys => ⟨False.elim, ?_⟩
      rintro ⟨decls, h⟩
      exact absurd h.depth_le (not_le.mpr hdepth)
    · have hnested : ∀ kind field, Recognizes bytes (value bytes kind field (depth + 1))
          (IsValue kind field (depth + 1)) := fun kind field => ih _ (by omega) kind field _ rfl
      by_cases hbool : kind = 1 ∨ kind = 2
      · exact recognizes_bool hsize hdepth field hbool
      by_cases hinteger : kind = 4 ∨ kind = 5 ∨ kind = 6
      · exact recognizes_integer hsize hdepth field hinteger
      by_cases hlist : kind = 9 ∨ kind = 10
      · exact recognizes_list hsize hdepth field hnested hlist
      obtain rfl | rfl | rfl | rfl | rfl | rfl | hother :
          kind = 3 ∨ kind = 7 ∨ kind = 8 ∨ kind = 11 ∨ kind = 12 ∨ kind = 13 ∨
            (kind = 0 ∨ 14 ≤ kind) := by omega
      · exact recognizes_fixed hsize hdepth field (.inl ⟨rfl, rfl⟩)
      · exact recognizes_fixed hsize hdepth field (.inr (.inl ⟨rfl, rfl⟩))
      · exact recognizes_binary hsize hdepth field
      · exact recognizes_map hsize hdepth field hnested
      · exact recognizes_struct hsize hdepth field hnested
      · exact recognizes_fixed hsize hdepth field (.inr (.inr ⟨rfl, rfl⟩))
      · have hvalue : value bytes kind field depth = fun _ => .error (.refused invalid) := by
          funext start
          rw [value, dif_neg hdepth] <;> omega
        rw [hvalue]
        refine (Recognizes.refuse _).congr fun ys => ⟨False.elim, ?_⟩
        rintro ⟨decls, h⟩
        cases h <;> omega

end Parts

/-- **The bounds check is exact.** It never panics, it accepts the complete structs of the grammar
of nesting at most 64, and in these every declared amount is at most the number of bytes behind
its declaration. -/
theorem validate_exact (bytes : ByteSlice) :
    Safe (validate bytes) ∧
      (validate bytes = .ok () ↔ ∃ decls, Value 64 12 true 0 bytes.val decls) ∧
      (validate bytes = .ok () →
        ∀ decls, Value 64 12 true 0 bytes.val decls → ∀ d ∈ decls, d.amount ≤ d.following) := by
  have hvalue := recognizes_value bytes.property 12 true 0
  refine ⟨?_, ?_, fun _ decls h d hd => h.fits d hd⟩
  · exact (hvalue.safe (Nat.zero_le _)).bind fun _ _ => safe_refuseIf _
  · rw [validate, bind_eq_ok]
    constructor
    · rintro ⟨stop, hstop, hguard⟩
      obtain ⟨ys, hys, hat, rfl⟩ := (hvalue.ok (Nat.zero_le _)).mp hstop
      have hlength := not_not.mp (refuseIf_eq_ok.mp hguard)
      rw [Nat.zero_add] at hlength
      rw [← startsAt_zero_of_length hat hlength]
      exact hys
    · intro h
      refine ⟨_, (hvalue.ok (Nat.zero_le _)).mpr ⟨bytes.val, h, List.prefix_rfl, rfl⟩, ?_⟩
      rw [refuseIf_eq_ok, Nat.zero_add, not_not]

end Otmp.DataFusion.FooterBounds
