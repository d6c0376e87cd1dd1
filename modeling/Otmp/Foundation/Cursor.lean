import Otmp.Foundation.CborReaders
import Otmp.Foundation.Checked

/-!
# Decoders with an offset

A cursor keeps the whole buffer and the offset of what it reads next, as a decoder in a systems
language does. Its reads may refuse the input, and its arithmetic and conversions may panic. A
cursor that follows a decoder of byte strings does neither more nor less than the decoder, and
does not panic. Cursors that invert encoders compose, part by part.
-/

namespace Foundation

/-- A decoder over a buffer with an offset, which refuses its input or panics as the code does. -/
abbrev Cursor (ε α : Type) := ReaderT (List UInt8) (StateT ℕ (Except (Fault ε))) α

namespace Cursor

variable {ε α β γ : Type}

/-- Refuse the input with the given error, wherever the cursor stands. -/
def refuse (e : ε) : Cursor ε α := fun _ _ => .error (.refused e)

/-- The length of the whole buffer, whatever has been read of it. -/
def size : Cursor ε ℕ := fun bytes offset => .ok (bytes.length, offset)

section Primitives

variable (invalid : String → ε)

/-- The byte at the offset, which moves behind it; input that ends here is refused. -/
def byte : Cursor ε UInt8 := fun bytes offset => do
  let b ← orRefuse (invalid "unexpected end of CBOR") bytes[offset]?
  let offset ← addOrPanic offset 1
  return (b, offset)

/-- The bytes from the offset on, as many as are asked for; the offset moves behind them. -/
def take (length : ℕ) : Cursor ε (List UInt8) := fun bytes offset => do
  let stop ← orRefuse (invalid "CBOR offset overflow") (checkedAdd offset length)
  let taken ← orRefuse (invalid "unexpected end of CBOR") (getRange? bytes offset stop)
  return (taken, stop)

/-- Bytes of a fixed width as a number. The conversion expects the width. -/
def fixed (width : ℕ) : Cursor ε ℕ := do
  let bytes ← take invalid width
  if bytes.length ≠ width then fun _ _ => .error .panicked
  else return Cbor.beNat bytes

/-- A head and its value, in the shortest form that has room for the value. -/
def head : Cursor ε (ℕ × ℕ) := do
  let head ← byte invalid
  let kind := head.toNat / 32
  let wide (value floor : ℕ) : Cursor ε (ℕ × ℕ) :=
    if value ≤ floor then refuse (invalid "non-shortest CBOR integer") else return (kind, value)
  match head.toNat % 32 with
  | 24 => do wide (← byte invalid).toNat 23
  | 25 => do wide (← fixed invalid 2) 255
  | 26 => do wide (← fixed invalid 4) 65535
  | 27 => do wide (← fixed invalid 8) 4294967295
  | additional =>
    if 23 < additional then refuse (invalid "indefinite or reserved CBOR form")
    else return (kind, additional)

/-- Read an unsigned integer; a head of any other kind is refused. -/
def readUnsigned : Cursor ε ℕ := do
  let (kind, value) ← head invalid
  if kind ≠ 0 then refuse (invalid "expected unsigned integer") else return value

/-- Read the length of a value of the expected kind. -/
def readLength (expected : ℕ) : Cursor ε ℕ := do
  let (kind, value) ← head invalid
  if kind ≠ expected then refuse (invalid "unexpected CBOR major type") else return value

/-- Read a byte string: its length, and then as many bytes. -/
def readByteString : Cursor ε (List UInt8) := do
  let length ← readLength invalid 2
  take invalid length

/-- Read a text: its length, and then as many bytes, which have to be UTF-8. -/
def readText : Cursor ε String := do
  let length ← readLength invalid 3
  let bytes ← take invalid length
  match String.fromUTF8? ⟨bytes.toArray⟩ with
  | some value => return value
  | none => refuse (invalid "CBOR text is not UTF-8")

/-- Read a fixed count of items, one behind the other. -/
def readMany (c : Cursor ε α) : ℕ → Cursor ε (List α)
  | 0 => pure []
  | count + 1 => do
    let a ← c
    let as ← readMany c count
    return a :: as

/-- Run a cursor on a whole buffer, behind which nothing may follow. -/
def finish (c : Cursor ε α) (bytes : List UInt8) : Except (Fault ε) α := do
  let (a, offset) ← c bytes 0
  if offset ≠ bytes.length then .error (.refused (invalid "trailing CBOR bytes")) else .ok a

end Primitives

/-- A sequence of cursors runs the second one where the first one stopped. -/
theorem bind_apply (c : Cursor ε α) (k : α → Cursor ε β) (bytes : List UInt8) (offset : ℕ) :
    (c >>= k) bytes offset = c bytes offset >>= fun p => k p.1 bytes p.2 := rfl

/-- A sequence of cursors succeeds through its first part. -/
theorem bind_eq_ok {c : Cursor ε α} {k : α → Cursor ε β} {bytes : List UInt8} {offset : ℕ}
    {r : β × ℕ} : (c >>= k) bytes offset = .ok r ↔
      ∃ a mid, c bytes offset = .ok (a, mid) ∧ k a bytes mid = .ok r := by
  rw [bind_apply, Foundation.bind_eq_ok]
  constructor
  · rintro ⟨⟨a, mid⟩, hc, hk⟩
    exact ⟨a, mid, hc, hk⟩
  · rintro ⟨a, mid, hc, hk⟩
    exact ⟨(a, mid), hc, hk⟩

/-- A cursor does on the rest of a buffer what a decoder does on that rest. -/
structure Follows (c : Cursor ε α) (d : Decoder ε α) : Prop where
  ok : ∀ {bytes rest : List UInt8} {offset : ℕ} {a : α}, bytes.length < wordSize →
    offset ≤ bytes.length → d bytes.length (bytes.drop offset) = .ok (a, rest) →
    ∃ stop, stop ≤ bytes.length ∧ rest = bytes.drop stop ∧ c bytes offset = .ok (a, stop)
  error : ∀ {bytes : List UInt8} {offset : ℕ} {e : ε}, bytes.length < wordSize →
    offset ≤ bytes.length → d bytes.length (bytes.drop offset) = .error e →
    c bytes offset = .error (.refused e)

namespace Follows

variable {c : Cursor ε α} {d : Decoder ε α} {k : α → Cursor ε β} {l : α → Decoder ε β}

/-- Returning a value on a cursor follows returning it in a decoder. -/
protected theorem pure (a : α) : Follows (pure a : Cursor ε α) (pure a) where
  ok _ hle h := by
    obtain ⟨rfl, rfl⟩ := Decoder.pure_eq_ok.mp h
    exact ⟨_, hle, rfl, rfl⟩
  error _ _ h := nomatch h

/-- Refusing the input follows refusing it with the same error. -/
protected theorem refuse (e : ε) : Follows (refuse e : Cursor ε α) (throw e) where
  ok _ _ h := nomatch h
  error _ _ h := by
    cases h
    rfl

/-- Cursors follow a sequence of decoders part by part. -/
protected theorem bind_of (hc : Follows c d)
    (hk : ∀ {size bytes rest a}, d size bytes = .ok (a, rest) → Follows (k a) (l a)) :
    Follows (c >>= k) (d >>= l) where
  ok hfits hle h := by
    obtain ⟨a, mid, hd, hl⟩ := Decoder.bind_eq_ok.mp h
    obtain ⟨stop, hstop, rfl, ha⟩ := hc.ok hfits hle hd
    obtain ⟨stop', hstop', rfl, hb⟩ := (hk hd).ok hfits hstop hl
    exact ⟨stop', hstop', rfl, bind_eq_ok.mpr ⟨a, stop, ha, hb⟩⟩
  error {bytes offset e} hfits hle h := by
    change (d bytes.length (bytes.drop offset) >>= fun p => l p.1 bytes.length p.2) = _ at h
    cases hd : d bytes.length (bytes.drop offset) with
    | error e' =>
      rw [hd] at h
      cases h
      rw [bind_apply, hc.error hfits hle hd]
      rfl
    | ok r =>
      obtain ⟨a, mid⟩ := r
      obtain ⟨stop, hstop, rfl, ha⟩ := hc.ok hfits hle hd
      rw [hd] at h
      rw [bind_apply, ha]
      exact (hk hd).error hfits hstop h

/-- A sequence of cursors follows a sequence of decoders. -/
protected theorem bind (hc : Follows c d) (hk : ∀ a, Follows (k a) (l a)) :
    Follows (c >>= k) (d >>= l) := hc.bind_of fun {_ _ _ a} _ => hk a

/-- A check is passed or refused by both. -/
protected theorem ite {p : Prop} [Decidable p] {c' : Cursor ε α} {d' : Decoder ε α}
    (h : Follows c d) (h' : Follows c' d') :
    Follows (if p then c else c') (if p then d else d') := by
  split
  · exact h
  · exact h'

variable {invalid : String → ε}

/-- Reading the byte at the offset follows reading the next byte. -/
theorem byte : Follows (Cursor.byte invalid) (Cbor.byte invalid) where
  ok {bytes rest offset b} hfits hle h := by
    have hdrop := Cbor.byte_inv h
    have hlength := congrArg List.length hdrop
    rw [List.length_drop, List.length_cons] at hlength
    have hget : bytes[offset]? = some b := by
      rw [← List.head?_drop, hdrop, List.head?_cons]
    refine ⟨offset + 1, by omega, ?_, ?_⟩
    · rw [← List.drop_drop, hdrop, List.drop_one, List.tail_cons]
    · rw [Cursor.byte, hget]
      exact ok_bind (addOrPanic_eq (by omega))
  error {bytes offset e} hfits hle h := by
    have hnone : bytes[offset]? = none := by
      cases hdrop : bytes.drop offset with
      | nil => exact List.getElem?_eq_none (List.drop_eq_nil_iff.mp hdrop)
      | cons b rest =>
        rw [hdrop] at h
        cases h
    have hnil : bytes.drop offset = [] :=
      List.drop_eq_nil_iff.mpr (List.getElem?_eq_none_iff.mp hnone)
    rw [hnil] at h
    cases h
    rw [Cursor.byte, hnone]
    rfl

/-- Taking bytes from the offset on follows taking the next bytes, with the same error for a length
that leaves the word and for one that leaves the buffer. -/
theorem take (length : ℕ) : Follows (Cursor.take invalid length) (Cbor.take invalid length) where
  ok {bytes rest offset taken} hfits hle h := by
    obtain ⟨hdrop, hlength⟩ := Cbor.take_inv h
    have hle' := congrArg List.length hdrop
    rw [List.length_drop, List.length_append] at hle'
    have htaken : (bytes.drop offset).take length = taken := by
      rw [hdrop, ← hlength, List.take_left]
    have hrest : bytes.drop (offset + length) = rest := by
      rw [← List.drop_drop, hdrop, ← hlength, List.drop_left]
    refine ⟨offset + length, by omega, hrest.symm, ?_⟩
    have hsum : checkedAdd offset length = some (offset + length) :=
      checkedAdd_eq_some.mpr ⟨by omega, rfl⟩
    have hrange : getRange? bytes offset (offset + length) =
        some taken := by
      refine getRange?_eq_some.mpr ⟨by omega, by omega, ?_⟩
      rw [Nat.add_sub_cancel_left]
      exact htaken
    exact (ok_bind (orRefuse_eq_ok.mpr hsum)).trans (ok_bind (orRefuse_eq_ok.mpr hrange))
  error {bytes offset e} hfits hle h := by
    rw [Cbor.take, List.length_drop] at h
    have hlong : bytes.length < offset + length := by
      by_contra hle'
      rw [if_pos (by omega)] at h
      cases h
    have hoffset : bytes.length - (bytes.length - offset) = offset := by omega
    rw [if_neg (by omega), hoffset] at h
    rw [Cursor.take]
    cases hsum : checkedAdd offset length with
    | none =>
      have hwide : ¬offset + length < 18446744073709551616 := checkedAdd_eq_none.mp hsum
      rw [if_neg hwide] at h
      cases h
      rfl
    | some stop =>
      obtain ⟨hnarrow, rfl⟩ := checkedAdd_eq_some.mp hsum
      have hword : offset + length < 18446744073709551616 := hnarrow
      rw [if_pos hword] at h
      cases h
      rw [ok_bind (orRefuse_eq_ok.mpr rfl)]
      cases hrange : getRange? bytes offset (offset + length) with
      | none => rfl
      | some taken =>
        have hbound := (getRange?_eq_some.mp hrange).2.1
        omega

/-- A conversion of bytes of a fixed width does not panic. -/
theorem wide {kind width floor : ℕ} :
    Follows (do
      let value ← fixed invalid width
      if value ≤ floor then refuse (invalid "non-shortest CBOR integer") else return (kind, value))
      (Cbor.wide invalid kind width floor) := by
  rw [Cbor.wide, fixed, bind_assoc]
  refine (take width).bind_of fun {size bytes rest a} h => ?_
  obtain ⟨-, hlength⟩ := Cbor.take_inv h
  rw [if_neg (not_not.mpr hlength), pure_bind]
  exact .ite (.refuse _) (.pure _)

/-- Reading a head at the offset follows reading the next one, form by form. -/
theorem head : Follows (Cursor.head invalid) (Cbor.head invalid) := by
  rw [Cursor.head, Cbor.head]
  refine byte.bind fun b => ?_
  have hlt : b.toNat % 32 < 32 := Nat.mod_lt _ (by decide)
  generalize b.toNat % 32 = additional at hlt
  generalize b.toNat / 32 = kind
  by_cases h24 : additional = 24
  · subst h24
    exact byte.bind fun b => .ite (.refuse _) (.pure _)
  by_cases h25 : additional = 25
  · subst h25
    exact wide
  by_cases h26 : additional = 26
  · subst h26
    exact wide
  by_cases h27 : additional = 27
  · subst h27
    exact wide
  simp only
  exact .ite (.refuse _) (.pure _)

/-- Reading an unsigned integer at the offset follows reading the next one. -/
theorem readUnsigned : Follows (Cursor.readUnsigned invalid) (Cbor.readUnsigned invalid) :=
  head.bind fun _ => .ite (.refuse _) (.pure _)

/-- Reading a length at the offset follows reading the next one. -/
theorem readLength (expected : ℕ) :
    Follows (Cursor.readLength invalid expected) (Cbor.readLength invalid expected) :=
  head.bind fun _ => .ite (.refuse _) (.pure _)

/-- Reading a byte string at the offset follows reading the next one. -/
theorem readByteString : Follows (Cursor.readByteString invalid) (Cbor.readByteString invalid) :=
  (readLength 2).bind fun length => take length

/-- Reading a text at the offset follows reading the next one. -/
theorem readText : Follows (Cursor.readText invalid) (Cbor.readText invalid) := by
  refine (readLength 3).bind fun length => (take length).bind fun bytes => ?_
  cases String.fromUTF8? ⟨bytes.toArray⟩ with
  | none => exact .refuse _
  | some value => exact .pure value

end Follows

/-- A cursor inverts an encoder on the good values: it reads back what the encoder wrote for a
good value, accepts nothing else, and never panics. -/
structure Inverts (c : Cursor ε α) (encode : α → List UInt8) (Good : α → Prop) : Prop where
  reads : ∀ {bytes tail : List UInt8} {offset : ℕ} {a : α}, bytes.length < wordSize →
    offset ≤ bytes.length → bytes.drop offset = encode a ++ tail → Good a →
    c bytes offset = .ok (a, offset + (encode a).length)
  accepts : ∀ {bytes : List UInt8} {offset stop : ℕ} {a : α}, bytes.length < wordSize →
    offset ≤ bytes.length → c bytes offset = .ok (a, stop) →
    stop ≤ bytes.length ∧ bytes.drop offset = encode a ++ bytes.drop stop ∧ Good a
  safe : ∀ {bytes : List UInt8} {offset : ℕ}, bytes.length < wordSize → offset ≤ bytes.length →
    Safe (c bytes offset)

/-- A cursor inverts what the decoder that it follows inverts. -/
theorem Follows.inverts {c : Cursor ε α} {d : Decoder ε α} {encode : α → List UInt8}
    {Good : α → Prop} (hc : Follows c d) (hd : Foundation.Inverts d encode Good) :
    Inverts c encode Good where
  reads {bytes tail offset a} hfits hle hdrop ha := by
    have hread : d bytes.length (bytes.drop offset) = .ok (a, tail) := hdrop ▸ hd.reads ha _ tail
    obtain ⟨stop, hstop, rfl, hok⟩ := hc.ok hfits hle hread
    have hlength := congrArg List.length hdrop
    rw [List.length_append, List.length_drop, List.length_drop] at hlength
    have hsame : stop = offset + (encode a).length := by omega
    rw [hok, hsame]
  accepts {bytes offset stop a} hfits hle h := by
    cases hd' : d bytes.length (bytes.drop offset) with
    | error e =>
      rw [hc.error hfits hle hd'] at h
      cases h
    | ok r =>
      obtain ⟨a', rest⟩ := r
      obtain ⟨stop', hstop', rfl, hok⟩ := hc.ok hfits hle hd'
      rw [hok] at h
      cases h
      obtain ⟨hdrop, ha⟩ := hd.accepts hd'
      exact ⟨hstop', hdrop, ha⟩
  safe {bytes offset} hfits hle := by
    cases hd' : d bytes.length (bytes.drop offset) with
    | error e => exact hc.error hfits hle hd' ▸ safe_refused e
    | ok r =>
      obtain ⟨stop, -, -, hok⟩ := hc.ok hfits hle hd'
      exact hok ▸ safe_ok _

namespace Inverts

variable {c : Cursor ε α} {encode encode' : α → List UInt8} {Good Good' : α → Prop}

/-- A cursor inverts another encoder that writes the same bytes for the same good values. -/
theorem congr (h : Inverts c encode Good) (hencode : ∀ a, Good' a → encode' a = encode a)
    (hgood : ∀ a, Good' a ↔ Good a) : Inverts c encode' Good' where
  reads hfits hle hdrop ha := by
    rw [hencode _ ha] at hdrop ⊢
    exact h.reads hfits hle hdrop ((hgood _).mp ha)
  accepts hfits hle hok := by
    obtain ⟨hstop, hdrop, ha⟩ := h.accepts hfits hle hok
    have ha' := (hgood _).mpr ha
    exact ⟨hstop, by rw [hdrop, hencode _ ha'], ha'⟩
  safe := h.safe

/-- Reading nothing inverts writing nothing, for a single good value. -/
protected theorem pure {a : α} (h : ∀ b, Good b ↔ b = a) :
    Inverts (pure a : Cursor ε α) (fun _ => []) Good where
  reads _ _ _ hb := by
    rw [(h _).mp hb]
    rfl
  accepts _ hle hok := by
    cases hok
    exact ⟨hle, rfl, (h _).mpr rfl⟩
  safe _ _ := safe_ok _

/-- Refusing everything inverts any encoder without good values. -/
protected theorem refuse {e : ε} (h : ∀ b, ¬Good b) : Inverts (refuse e) encode Good where
  reads _ _ _ hb := absurd hb (h _)
  accepts _ _ hok := nomatch hok
  safe _ _ := safe_refused _

/-- A check is refused for no good value. -/
theorem guard {p : Prop} [Decidable p] {e : ε} (h : ¬p → Inverts c encode Good)
    (hgood : ∀ a, Good a → ¬p) : Inverts (if p then Cursor.refuse e else c) encode Good := by
  split
  · next hp => exact .refuse fun a ha => hgood a ha hp
  · next hp => exact h hp

/-- A value is read as a front part of it and the rest. -/
theorem bind_of (Part : γ → α → Prop) (rest : γ → List UInt8) {k : α → Cursor ε γ}
    {whole : γ → List UInt8} {Whole : γ → Prop} (hc : Inverts c encode Good)
    (hpart : ∀ x, Whole x → ∃ a, Part x a ∧ Good a)
    (hwhole : ∀ {x a}, Part x a → whole x = encode a ++ rest x)
    (hk : ∀ a, Good a → Inverts (k a) rest fun x => Part x a ∧ Whole x) :
    Inverts (c >>= k) whole Whole where
  reads {bytes tail offset x} hfits hle hdrop hx := by
    obtain ⟨a, ha, hgood⟩ := hpart x hx
    rw [hwhole ha, List.append_assoc] at hdrop
    have hfront := hc.reads hfits hle hdrop hgood
    have hlength := congrArg List.length hdrop
    simp only [List.length_append, List.length_drop] at hlength
    have hback : bytes.drop (offset + (encode a).length) = rest x ++ tail := by
      rw [← List.drop_drop, hdrop, List.drop_left]
    rw [bind_apply, hfront]
    change k a bytes _ = _
    rw [(hk _ hgood).reads hfits (by omega) hback ⟨ha, hx⟩, hwhole ha, List.length_append,
      Nat.add_assoc]
  accepts hfits hle hok := by
    obtain ⟨a, mid, hfront, hback⟩ := bind_eq_ok.mp hok
    obtain ⟨hmid, hdrop, ha⟩ := hc.accepts hfits hle hfront
    obtain ⟨hstop, hdrop', hpart', hx⟩ := (hk a ha).accepts hfits hmid hback
    exact ⟨hstop, by rw [hdrop, hdrop', hwhole hpart', List.append_assoc], hx⟩
  safe {bytes offset} hfits hle := by
    refine Safe.bind (hc.safe hfits hle) fun r hr => ?_
    obtain ⟨hmid, -, ha⟩ := hc.accepts hfits hle hr
    exact (hk _ ha).safe hfits hmid

/-- A value is read as a front part that one of its functions gives, and the rest. -/
protected theorem bind (part : γ → α) {k : α → Cursor ε γ} {rest : γ → List UInt8}
    {Whole : γ → Prop} (hc : Inverts c encode Good) (hpart : ∀ x, Whole x → Good (part x))
    (hk : ∀ a, Good a → Inverts (k a) rest fun x => part x = a ∧ Whole x) :
    Inverts (c >>= k) (fun x => encode (part x) ++ rest x) Whole :=
  hc.bind_of (fun x a => part x = a) rest (fun x hx => ⟨part x, rfl, hpart x hx⟩)
    (fun h => h ▸ rfl) hk

/-- A value is all in its part. -/
theorem only (part : γ → α) {k : α → Cursor ε γ} {Whole : γ → Prop} (hc : Inverts c encode Good)
    (hpart : ∀ x, Whole x → Good (part x))
    (hk : ∀ a, Good a → Inverts (k a) (fun _ => []) fun x => part x = a ∧ Whole x) :
    Inverts (c >>= k) (fun x => encode (part x)) Whole :=
  (hc.bind part hpart hk).congr (fun _ _ => (List.append_nil _).symm) fun _ => Iff.rfl

/-- The last part of a value, which determines the whole value with the parts before it. -/
theorem last (part : γ → α) {make : α → γ} {Whole : γ → Prop} (hc : Inverts c encode Good)
    (hpart : ∀ x, Whole x → Good (part x))
    (hmake : ∀ a, Good a → ∀ x, part x = a ∧ Whole x ↔ x = make a) :
    Inverts (c >>= fun a => pure (make a)) (fun x => encode (part x)) Whole :=
  hc.only part hpart fun a ha => .pure (hmake a ha)

/-- A part that carries no value, such as a fixed key, in front of the rest. -/
theorem skip {c : Cursor ε Unit} {k : Cursor ε γ} {front : List UInt8} {rest : γ → List UInt8}
    {Whole : γ → Prop} (hc : Inverts c (fun _ => front) fun _ => True) (hk : Inverts k rest Whole) :
    Inverts (c >>= fun _ => k) (fun x => front ++ rest x) Whole :=
  hc.bind (fun _ => ()) (fun _ _ => trivial) fun _ _ =>
    hk.congr (fun _ _ => rfl) fun _ => and_iff_right rfl

/-- A value that is checked after it is read. -/
theorem check {p : α → Prop} [DecidablePred p] {e : α → ε} (hc : Inverts c encode Good) :
    Inverts (c >>= fun a => if p a then Cursor.refuse (e a) else pure a) encode
      fun a => Good a ∧ ¬p a := by
  refine hc.only (fun a => a) (fun a ha => ha.1) fun a ha => ?_
  by_cases hp : p a
  · rw [if_pos hp]
    refine .refuse fun b hb => ?_
    obtain ⟨rfl, -, hb⟩ := hb
    exact hb hp
  · rw [if_neg hp]
    refine .pure fun b => ⟨fun hb => hb.1, ?_⟩
    rintro rfl
    exact ⟨rfl, ha, hp⟩

/-- A value that is packed with the proof of a check. -/
theorem pack {p : α → Prop} [DecidablePred p] {e : ε} (hc : Inverts c encode Good) :
    Inverts (c >>= fun a => if h : p a then pure (⟨a, h⟩ : {a // p a}) else Cursor.refuse e)
      (fun a => encode a.val) fun a => Good a.val := by
  refine hc.only Subtype.val (fun a ha => ha) fun a ha => ?_
  by_cases hp : p a
  · rw [dif_pos hp]
    refine .pure fun b => ⟨fun hb => Subtype.ext hb.1, ?_⟩
    rintro rfl
    exact ⟨rfl, ha⟩
  · rw [dif_neg hp]
    refine .refuse fun b hb => hp ?_
    rw [← hb.1]
    exact b.2

/-- A value is no shorter than some number that is checked against the whole buffer. -/
theorem sized {p : ℕ → Prop} [DecidablePred p] {e : ε} (hc : ∀ n, ¬p n → Inverts c encode Good)
    (hsize : ∀ a, Good a → ∀ n, (encode a).length ≤ n → ¬p n) :
    Inverts (Cursor.size >>= fun n => if p n then Cursor.refuse e else c) encode Good where
  reads {bytes tail offset a} hfits hle hdrop ha := by
    have hlength := congrArg List.length hdrop
    simp only [List.length_append, List.length_drop] at hlength
    change (if p bytes.length then Cursor.refuse e else c) bytes offset = _
    have hp := hsize a ha bytes.length (by omega)
    rw [if_neg hp]
    exact (hc _ hp).reads hfits hle hdrop ha
  accepts {bytes offset stop a} hfits hle hok := by
    change (if p bytes.length then Cursor.refuse e else c) bytes offset = _ at hok
    split at hok
    · cases hok
    · next hp => exact (hc _ hp).accepts hfits hle hok
  safe {bytes offset} hfits hle := by
    change Safe ((if p bytes.length then Cursor.refuse e else c) bytes offset)
    split
    · exact safe_refused e
    · next hp => exact (hc _ hp).safe hfits hle

/-- A fixed count of items is read back when each item is. -/
theorem many (hc : Inverts c encode Good) (count : ℕ) :
    Inverts (Cursor.readMany c count) (List.flatMap encode)
      fun as => as.length = count ∧ ∀ a ∈ as, Good a := by
  induction count with
  | zero =>
    refine (Inverts.pure (a := []) fun as => ?_).congr (fun as has => ?_) fun _ => Iff.rfl
    · constructor
      · exact fun h => List.length_eq_zero_iff.mp h.1
      · rintro rfl
        exact ⟨rfl, nofun⟩
    · rw [List.length_eq_zero_iff.mp has.1, List.flatMap_nil]
  | succ count ih =>
    refine hc.bind_of (fun as a => as.head? = some a) (fun as => as.tail.flatMap encode)
      (fun as has => ?_) (fun {as a} ha => ?_)
      fun a ha => (ih.last List.tail (fun as has => ?_) fun rest hrest as => ?_)
    · cases as with
      | nil => cases has.1
      | cons a as => exact ⟨a, rfl, has.2 a List.mem_cons_self⟩
    · obtain ⟨rest, rfl⟩ := List.head?_eq_some_iff.mp ha
      rfl
    · obtain ⟨hhead, hlength, hall⟩ := has
      obtain ⟨rest, rfl⟩ := List.head?_eq_some_iff.mp hhead
      exact ⟨Nat.succ.inj hlength, fun b hb => hall b (List.mem_cons_of_mem a hb)⟩
    · constructor
      · rintro ⟨rfl, hhead, -⟩
        obtain ⟨rest, rfl⟩ := List.head?_eq_some_iff.mp hhead
        rfl
      · rintro rfl
        exact ⟨rfl, rfl, congrArg Nat.succ hrest.1, List.forall_mem_cons.mpr ⟨ha, hrest.2⟩⟩

end Inverts

variable {invalid : String → ε}

/-- Reading unsigned integers at an offset inverts writing them. -/
theorem readUnsigned_inverts :
    Inverts (readUnsigned invalid) Cbor.unsigned (· < 18446744073709551616) :=
  Follows.readUnsigned.inverts Cbor.readUnsigned_inverts

/-- Reading lengths of a kind at an offset inverts writing them. -/
theorem readLength_inverts {kind : ℕ} (hkind : kind < 8) :
    Inverts (readLength invalid kind) (Cbor.major kind) (· < 18446744073709551616) :=
  (Follows.readLength kind).inverts ⟨Cbor.readLength_reads hkind, Cbor.readLength_inv⟩

/-- Reading byte strings at an offset inverts writing them. -/
theorem readByteString_inverts : Inverts (readByteString invalid) Cbor.byteString
    (·.length < 18446744073709551616) :=
  Follows.readByteString.inverts Cbor.readByteString_inverts

/-- Reading texts at an offset inverts writing them. -/
theorem readText_inverts : Inverts (readText invalid) Cbor.text
    (fun value => (Cbor.utf8 value).length < 18446744073709551616) :=
  Follows.readText.inverts Cbor.readText_inverts

/-- Exactly the encodings of good values are read as whole buffers. -/
theorem finish_eq_ok {c : Cursor ε α} {encode : α → List UInt8} {Good : α → Prop}
    {bytes : List UInt8} {a : α} (hc : Inverts c encode Good) (hfits : bytes.length < wordSize) :
    finish invalid c bytes = .ok a ↔ Good a ∧ bytes = encode a := by
  rw [finish, Foundation.bind_eq_ok]
  constructor
  · rintro ⟨⟨a', stop⟩, hok, h⟩
    obtain ⟨hstop, h⟩ := ite_error_eq_ok.mp h
    cases h
    obtain ⟨-, hdrop, ha⟩ := hc.accepts hfits (Nat.zero_le _) hok
    rw [not_ne_iff] at hstop
    rw [hstop, List.drop_length, List.append_nil, List.drop_zero] at hdrop
    exact ⟨ha, hdrop⟩
  · rintro ⟨ha, rfl⟩
    have hok := @hc.reads _ [] _ _ hfits (Nat.zero_le _)
      (by rw [List.drop_zero, List.append_nil]) ha
    exact ⟨_, hok, if_neg (by simp)⟩

/-- Reading a whole buffer does not panic when the cursor inverts an encoder. -/
theorem safe_finish {c : Cursor ε α} {encode : α → List UInt8} {Good : α → Prop}
    {bytes : List UInt8} (hc : Inverts c encode Good) (hfits : bytes.length < wordSize) :
    Safe (finish invalid c bytes) := by
  refine Safe.bind (hc.safe hfits (Nat.zero_le _)) fun r _ => ?_
  obtain ⟨a, stop⟩ := r
  dsimp only
  split
  · exact safe_refused _
  · exact safe_ok _

end Cursor

end Foundation
