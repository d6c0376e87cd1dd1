import Mathlib.Data.List.Induction
import Otmp.Foundation.Cbor
import Otmp.Foundation.Run

/-!
# The readers of deterministic CBOR

Every reader returns what its writer wrote, whatever follows; and whatever a reader
accepts is what its writer writes, followed by the rest. Both directions together make
an encoding a bijection with its image.
-/

namespace Foundation

variable {ε α β : Type}

/-- A sequence of decoders succeeds through its first part. -/
theorem Decoder.bind_eq_ok {d : Decoder ε α} {k : α → Decoder ε β} {bytes rest : List UInt8}
    {size : ℕ} {b : β} : (d >>= k) size bytes = .ok (b, rest) ↔
      ∃ a mid, d size bytes = .ok (a, mid) ∧ k a size mid = .ok (b, rest) := by
  change (d size bytes >>= fun p => k p.1 size p.2) = _ ↔ _
  rw [Foundation.bind_eq_ok]
  constructor
  · rintro ⟨⟨a, mid⟩, hd, hk⟩
    exact ⟨a, mid, hd, hk⟩
  · rintro ⟨a, mid, hd, hk⟩
    exact ⟨(a, mid), hd, hk⟩

/-- A guard of a decoder has to be passed. -/
theorem Decoder.guard_eq_ok {c : Prop} [Decidable c] {e : ε} {d : Decoder ε α}
    {size : ℕ} {bytes : List UInt8} {r : α × List UInt8} :
    (if c then throw e else d) size bytes = .ok r ↔ ¬c ∧ d size bytes = .ok r := by
  split
  · rename_i hc
    exact iff_of_false nofun fun h => h.1 hc
  · rename_i hc
    exact (and_iff_right hc).symm

/-- A decoder that consumes nothing returns its value. -/
theorem Decoder.pure_eq_ok {a b : α} {size : ℕ} {bytes rest : List UInt8} :
    (pure a : Decoder ε α) size bytes = .ok (b, rest) ↔ b = a ∧ rest = bytes := by
  constructor
  · intro h
    cases h
    exact ⟨rfl, rfl⟩
  · rintro ⟨rfl, rfl⟩
    rfl

/-- A decoder followed by a function of its value. -/
theorem Decoder.map_eq_ok {d : Decoder ε α} {f : α → β} {size : ℕ} {bytes rest : List UInt8}
    {b : β} : (d >>= fun a => pure (f a)) size bytes = .ok (b, rest) ↔
      ∃ a, d size bytes = .ok (a, rest) ∧ b = f a := by
  rw [Decoder.bind_eq_ok]
  constructor
  · rintro ⟨a, mid, hd, hlast⟩
    obtain ⟨rfl, rfl⟩ := Decoder.pure_eq_ok.mp hlast
    exact ⟨a, hd, rfl⟩
  · rintro ⟨a, hd, rfl⟩
    exact ⟨a, rest, hd, rfl⟩

/-- A decoder inverts an encoder on the good values: it reads back what the encoder wrote
for a good value, and accepts nothing else. -/
structure Inverts (d : Decoder ε α) (encode : α → List UInt8) (Good : α → Prop) : Prop where
  reads : ∀ {a}, Good a → Reads d (encode a) a
  accepts : ∀ {size bytes a rest}, d size bytes = .ok (a, rest) → bytes = encode a ++ rest ∧ Good a

namespace Cbor

variable {invalid : String → ε} {size : ℕ} {bytes rest : List UInt8}

/-- The number of some bytes fits their width. -/
theorem beNat_lt (bytes : List UInt8) : beNat bytes < 256 ^ bytes.length := by
  induction bytes using List.reverseRecOn with
  | nil => decide
  | append_singleton bytes b ih =>
    have hb := b.toNat_lt
    unfold beNat at ih ⊢
    rw [List.foldl_append, List.foldl_cons, List.foldl_nil, List.length_append,
      List.length_singleton, Nat.pow_succ]
    omega

/-- Bytes are the fixed-width form of their number. -/
theorem beBytes_beNat (bytes : List UInt8) : beBytes bytes.length (beNat bytes) = bytes := by
  induction bytes using List.reverseRecOn with
  | nil => rfl
  | append_singleton bytes b ih =>
    have hb := b.toNat_lt
    have hnat : beNat (bytes ++ [b]) = 256 * beNat bytes + b.toNat := by
      unfold beNat
      rw [List.foldl_append, List.foldl_cons, List.foldl_nil]
    have hdiv : (256 * beNat bytes + b.toNat) / 256 = beNat bytes := by omega
    have hmod : (256 * beNat bytes + b.toNat) % 256 = b.toNat := by omega
    rw [List.length_append, List.length_singleton, beBytes, hnat, hdiv, hmod, ih,
      UInt8.ofNat_toNat]

/-- The byte that is read is the first one of the input. -/
theorem byte_inv {b : UInt8} (h : byte invalid size bytes = .ok (b, rest)) : bytes = b :: rest := by
  cases bytes with
  | nil => cases h
  | cons b' bytes =>
    cases h
    rfl

/-- The bytes that are taken are the front of the input, and as many as were asked for. -/
theorem take_inv {length : ℕ} {taken : List UInt8}
    (h : take invalid length size bytes = .ok (taken, rest)) :
    bytes = taken ++ rest ∧ taken.length = length := by
  rw [take] at h
  split at h
  · next hle =>
    cases h
    exact ⟨(List.take_append_drop length bytes).symm, by rw [List.length_take]; omega⟩
  · split at h <;> cases h

/-- What passes the check exceeds what the next shorter form holds, and nothing is consumed. -/
theorem wider_inv {kind floor value kind' value' : ℕ}
    (h : wider invalid kind floor value size bytes = .ok ((kind', value'), rest)) :
    kind' = kind ∧ value' = value ∧ rest = bytes ∧ floor < value := by
  rw [wider] at h
  obtain ⟨hfloor, h⟩ := Decoder.guard_eq_ok.mp h
  obtain ⟨heq, rfl⟩ := Decoder.pure_eq_ok.mp h
  cases heq
  exact ⟨rfl, rfl, rfl, by omega⟩

/-- What is read in a form of several bytes fits the form and does not fit a shorter one. -/
theorem wide_inv {kind width floor kind' value : ℕ}
    (h : wide invalid kind width floor size bytes = .ok ((kind', value), rest)) :
    kind' = kind ∧ bytes = beBytes width value ++ rest ∧ floor < value ∧ value < 256 ^ width := by
  rw [wide] at h
  obtain ⟨taken, mid, htake, h⟩ := Decoder.bind_eq_ok.mp h
  obtain ⟨rfl, rfl, rfl, hfloor⟩ := wider_inv h
  obtain ⟨rfl, rfl⟩ := take_inv htake
  exact ⟨rfl, by rw [beBytes_beNat], hfloor, beNat_lt taken⟩

/-- An accepted head is in the shortest form. -/
theorem head_inv {kind value : ℕ} (h : head invalid size bytes = .ok ((kind, value), rest)) :
    bytes = major kind value ++ rest ∧ kind < 8 ∧ value < 18446744073709551616 := by
  rw [head] at h
  obtain ⟨first, mid, hfirst, hrest⟩ := Decoder.bind_eq_ok.mp h
  have hbytes := byte_inv hfirst
  subst hbytes
  have hlt := first.toNat_lt
  have hof : ∀ n, n = first.toNat → UInt8.ofNat n = first := by
    rintro n rfl
    exact UInt8.ofNat_toNat
  by_cases h24 : first.toNat % 32 = 24
  · rw [h24] at hrest
    obtain ⟨second, mid', hsecond, hvalue⟩ := Decoder.bind_eq_ok.mp hrest
    obtain ⟨rfl, rfl, rfl, hfloor⟩ := wider_inv hvalue
    obtain rfl := byte_inv hsecond
    have hsecond := second.toNat_lt
    refine ⟨?_, by omega, by omega⟩
    rw [major, if_neg (by omega), if_pos (by omega), hof _ (by omega), UInt8.ofNat_toNat]
    rfl
  by_cases h25 : first.toNat % 32 = 25
  · rw [h25] at hrest
    obtain ⟨rfl, rfl, hfloor, hfits⟩ := wide_inv hrest
    refine ⟨?_, by omega, by omega⟩
    rw [major, if_neg (by omega), if_neg (by omega), if_pos (by omega), hof _ (by omega)]
    rfl
  by_cases h26 : first.toNat % 32 = 26
  · rw [h26] at hrest
    obtain ⟨rfl, rfl, hfloor, hfits⟩ := wide_inv hrest
    refine ⟨?_, by omega, by omega⟩
    rw [major, if_neg (by omega), if_neg (by omega), if_neg (by omega), if_pos (by omega),
      hof _ (by omega)]
    rfl
  by_cases h27 : first.toNat % 32 = 27
  · rw [h27] at hrest
    obtain ⟨rfl, rfl, hfloor, hfits⟩ := wide_inv hrest
    refine ⟨?_, by omega, by omega⟩
    rw [major, if_neg (by omega), if_neg (by omega), if_neg (by omega), if_neg (by omega),
      hof _ (by omega)]
    rfl
  simp only at hrest
  obtain ⟨hsmall, hlast⟩ := Decoder.guard_eq_ok.mp hrest
  obtain ⟨heq, rfl⟩ := Decoder.pure_eq_ok.mp hlast
  cases heq
  refine ⟨?_, by omega, by omega⟩
  rw [major, if_pos (by omega), hof _ (by omega)]
  rfl

/-- An unsigned integer of 64 bits is read back. -/
theorem readUnsigned_reads {value : ℕ} (hvalue : value < 18446744073709551616) :
    Reads (readUnsigned invalid) (unsigned value) value := by
  intro size tail
  refine Decoder.bind_eq_ok.mpr ⟨_, _, head_reads (by decide) hvalue _ tail, ?_⟩
  exact Decoder.guard_eq_ok.mpr ⟨by simp, rfl⟩

/-- An accepted unsigned integer is encoded as it would be written, and has 64 bits. -/
theorem readUnsigned_inv {value : ℕ} (h : readUnsigned invalid size bytes = .ok (value, rest)) :
    bytes = unsigned value ++ rest ∧ value < 18446744073709551616 := by
  rw [readUnsigned] at h
  obtain ⟨⟨kind, value'⟩, mid, hhead, h⟩ := Decoder.bind_eq_ok.mp h
  obtain ⟨hkind, h⟩ := Decoder.guard_eq_ok.mp h
  obtain ⟨rfl, rfl⟩ := Decoder.pure_eq_ok.mp h
  obtain ⟨hbytes, -, hlt⟩ := head_inv hhead
  rw [not_ne_iff] at hkind
  subst hkind
  exact ⟨hbytes, hlt⟩

/-- A signed integer of 64 bits is read back. -/
theorem readInteger_reads {value : ℤ} (hlow : -9223372036854775808 ≤ value)
    (hhigh : value < 9223372036854775808) : Reads (readInteger invalid) (integer value) value := by
  intro size tail
  by_cases hsign : 0 ≤ value
  · have hnat : ((value.natAbs : ℕ) : ℤ) = value := by omega
    rw [integer, if_pos hsign]
    refine Decoder.bind_eq_ok.mpr ⟨_, _, head_reads (by decide) (by omega) _ tail, ?_⟩
    refine Decoder.guard_eq_ok.mpr ⟨by omega, ?_⟩
    exact Decoder.pure_eq_ok.mpr ⟨hnat.symm, rfl⟩
  · have hnat : (-1 - ((value.natAbs - 1 : ℕ) : ℤ)) = value := by omega
    rw [integer, if_neg hsign]
    refine Decoder.bind_eq_ok.mpr ⟨_, _, head_reads (by decide) (by omega) _ tail, ?_⟩
    refine Decoder.guard_eq_ok.mpr ⟨by omega, ?_⟩
    exact Decoder.pure_eq_ok.mpr ⟨hnat.symm, rfl⟩

/-- An accepted signed integer is encoded as it would be written, and has 64 bits. -/
theorem readInteger_inv {value : ℤ} (h : readInteger invalid size bytes = .ok (value, rest)) :
    bytes = integer value ++ rest ∧ -9223372036854775808 ≤ value ∧
      value < 9223372036854775808 := by
  rw [readInteger] at h
  obtain ⟨⟨kind, n⟩, mid, hhead, h⟩ := Decoder.bind_eq_ok.mp h
  obtain ⟨hbytes, -, -⟩ := head_inv hhead
  dsimp only at h
  split at h
  · obtain ⟨hfits, h⟩ := Decoder.guard_eq_ok.mp h
    obtain ⟨rfl, rfl⟩ := Decoder.pure_eq_ok.mp h
    refine ⟨?_, by omega, by omega⟩
    rw [integer, if_pos (by omega), Int.natAbs_natCast]
    exact hbytes
  · obtain ⟨hfits, h⟩ := Decoder.guard_eq_ok.mp h
    obtain ⟨rfl, rfl⟩ := Decoder.pure_eq_ok.mp h
    have hnat : (-1 - (n : ℤ)).natAbs - 1 = n := by omega
    refine ⟨?_, by omega, by omega⟩
    rw [integer, if_neg (by omega), hnat]
    exact hbytes
  · cases h

/-- A length of 64 bits is read back under its kind. -/
theorem readLength_reads {kind length : ℕ} (hkind : kind < 8)
    (hlength : length < 18446744073709551616) :
    Reads (readLength invalid kind) (major kind length) length := by
  intro size tail
  refine Decoder.bind_eq_ok.mpr ⟨_, _, head_reads hkind hlength _ tail, ?_⟩
  exact Decoder.guard_eq_ok.mpr ⟨by simp, rfl⟩

/-- An accepted length is encoded as it would be written, and has 64 bits. -/
theorem readLength_inv {kind length : ℕ}
    (h : readLength invalid kind size bytes = .ok (length, rest)) :
    bytes = major kind length ++ rest ∧ length < 18446744073709551616 := by
  rw [readLength] at h
  obtain ⟨⟨kind', value⟩, mid, hhead, h⟩ := Decoder.bind_eq_ok.mp h
  obtain ⟨hkind, h⟩ := Decoder.guard_eq_ok.mp h
  obtain ⟨rfl, rfl⟩ := Decoder.pure_eq_ok.mp h
  obtain ⟨hbytes, -, hlt⟩ := head_inv hhead
  rw [not_ne_iff] at hkind
  subst hkind
  exact ⟨hbytes, hlt⟩

/-- A byte string of a 64-bit length is read back. -/
theorem readByteString_reads {value : List UInt8} (h : value.length < 18446744073709551616) :
    Reads (readByteString invalid) (byteString value) value := by
  intro size tail
  rw [byteString, List.append_assoc]
  exact Decoder.bind_eq_ok.mpr
    ⟨_, _, readLength_reads (by decide) h _ (value ++ tail), take_reads value _ tail⟩

/-- An accepted byte string is encoded as it would be written. -/
theorem readByteString_inv {value : List UInt8}
    (h : readByteString invalid size bytes = .ok (value, rest)) :
    bytes = byteString value ++ rest ∧ value.length < 18446744073709551616 := by
  rw [readByteString] at h
  obtain ⟨length, mid, hlength, htake⟩ := Decoder.bind_eq_ok.mp h
  obtain ⟨hbytes, hlt⟩ := readLength_inv hlength
  obtain ⟨rfl, rfl⟩ := take_inv htake
  exact ⟨by rw [hbytes, byteString, List.append_assoc], hlt⟩

/-- A text is read from its own bytes. -/
theorem fromUTF8?_utf8 (value : String) :
    String.fromUTF8? ⟨(utf8 value).toArray⟩ = some value := by
  rw [utf8, Array.toArray_toList]
  change String.fromUTF8? value.toByteArray = some value
  rw [String.fromUTF8?, dif_pos value.isValidUTF8]
  rfl

/-- Bytes that are read as a text are its bytes. -/
theorem utf8_of_fromUTF8? {value : String} (h : String.fromUTF8? ⟨bytes.toArray⟩ = some value) :
    utf8 value = bytes := by
  rw [String.fromUTF8?] at h
  split at h
  · cases h
    rfl
  · cases h

/-- A text of a 64-bit length is read back. -/
theorem readText_reads {value : String} (h : (utf8 value).length < 18446744073709551616) :
    Reads (readText invalid) (text value) value := by
  intro size tail
  rw [text, List.append_assoc]
  refine Decoder.bind_eq_ok.mpr
    ⟨_, _, readLength_reads (by decide) h _ (utf8 value ++ tail), ?_⟩
  refine Decoder.bind_eq_ok.mpr ⟨_, _, take_reads (utf8 value) _ tail, ?_⟩
  rw [fromUTF8?_utf8]
  rfl

/-- An accepted text is encoded as it would be written, in the bytes of its characters. -/
theorem readText_inv {value : String} (h : readText invalid size bytes = .ok (value, rest)) :
    bytes = text value ++ rest ∧ (utf8 value).length < 18446744073709551616 := by
  rw [readText] at h
  obtain ⟨length, mid, hlength, hbody⟩ := Decoder.bind_eq_ok.mp h
  obtain ⟨taken, mid', htake, hlast⟩ := Decoder.bind_eq_ok.mp hbody
  obtain ⟨hbytes, hlt⟩ := readLength_inv hlength
  obtain ⟨hmid, hlen⟩ := take_inv htake
  cases hutf8 : String.fromUTF8? ⟨taken.toArray⟩ with
  | none =>
    rw [hutf8] at hlast
    cases hlast
  | some value' =>
    rw [hutf8] at hlast
    obtain ⟨heq, hrest⟩ := Decoder.pure_eq_ok.mp hlast
    have htaken := utf8_of_fromUTF8? hutf8
    rw [heq, hrest, text, htaken, hlen, List.append_assoc, ← hmid]
    exact ⟨hbytes, hlt⟩

/-- A whole byte string is read when nothing follows. -/
theorem run_eq_ok {d : Decoder ε α} {a : α} : run invalid d bytes = .ok a ↔
    d bytes.length bytes = .ok (a, []) := by
  rw [run, Foundation.bind_eq_ok]
  constructor
  · rintro ⟨⟨b, rest⟩, hd, h⟩
    obtain ⟨hrest, h⟩ := ite_error_eq_ok.mp h
    cases h
    rw [not_ne_iff] at hrest
    rw [hd, hrest]
  · intro h
    exact ⟨(a, []), h, if_neg (by simp)⟩

/-- Exactly the encodings of good values are read as whole byte strings. -/
theorem run_inverts {d : Decoder ε α} {encode : α → List UInt8} {Good : α → Prop} {a : α}
    (hd : Inverts d encode Good) : run invalid d bytes = .ok a ↔ Good a ∧ bytes = encode a := by
  rw [run_eq_ok]
  constructor
  · intro h
    obtain ⟨hbytes, hgood⟩ := hd.accepts h
    exact ⟨hgood, by rw [hbytes, List.append_nil]⟩
  · rintro ⟨hgood, rfl⟩
    have h := hd.reads hgood (encode a).length []
    rwa [List.append_nil] at h

/-- Of a byte string and what continues it, only one is read as a whole. -/
theorem run_extension {d : Decoder ε α} {encode : α → List UInt8} {Good : α → Prop} {a b : α}
    (hd : Inverts d encode Good) (ha : run invalid d bytes = .ok a)
    (hb : run invalid d (bytes ++ rest) = .ok b) : rest = [] := by
  obtain ⟨hgood, rfl⟩ := (run_inverts hd).mp ha
  have h := hd.reads hgood (encode a ++ rest).length rest
  rw [run_eq_ok] at hb
  cases hb.symm.trans h
  rfl

/-- A decoder of whole byte strings and an encoder of the good values are inverse to each
other, up to the choice of a representative, and encodings say where they end. -/
structure Bijects (encode : α → List UInt8) (decode : List UInt8 → Except ε α)
    (Good : α → Prop) (canon : α → α) : Prop where
  decode_encode : ∀ a, Good a → decode (encode a) = .ok (canon a)
  encode_decode : ∀ bytes a, decode bytes = .ok a → Good a ∧ encode a = bytes
  no_prefix : ∀ a, Good a → ∀ bytes tail, encode a = bytes ++ tail → tail ≠ [] →
    ∀ b, decode bytes ≠ .ok b
  no_extension : ∀ a, Good a → ∀ tail, tail ≠ [] → ∀ b, decode (encode a ++ tail) ≠ .ok b

/-- A decoder that inverts an encoder on the representatives of the good values. -/
theorem Bijects.of_inverts {d : Decoder ε α} {encode : α → List UInt8} {Good : α → Prop}
    {canon : α → α} (hd : Inverts d encode fun a => Good a ∧ canon a = a)
    (hgood : ∀ a, Good a → Good (canon a) ∧ canon (canon a) = canon a)
    (hencode : ∀ a, encode (canon a) = encode a) :
    Bijects encode (run invalid d) Good canon := by
  have hback : ∀ a, Good a → run invalid d (encode a) = .ok (canon a) := fun a ha =>
    (run_inverts hd).mpr ⟨hgood a ha, (hencode a).symm⟩
  refine ⟨hback, ?_, ?_, ?_⟩
  · intro bytes a h
    obtain ⟨⟨ha, -⟩, hbytes⟩ := (run_inverts hd).mp h
    exact ⟨ha, hbytes.symm⟩
  · intro a ha bytes tail heq htail b hb
    have h := hback a ha
    rw [heq] at h
    exact htail (run_extension hd hb h)
  · intro a ha tail htail b hb
    exact htail (run_extension hd (hback a ha) hb)

/-- Reading unsigned integers inverts writing them, for those of 64 bits. -/
theorem readUnsigned_inverts :
    Inverts (readUnsigned invalid) unsigned (· < 18446744073709551616) :=
  ⟨readUnsigned_reads, readUnsigned_inv⟩

/-- Reading byte strings inverts writing them, for those of a 64-bit length. -/
theorem readByteString_inverts : Inverts (readByteString invalid) byteString
    (·.length < 18446744073709551616) :=
  ⟨readByteString_reads, readByteString_inv⟩

/-- Reading texts inverts writing them, for those of a 64-bit length. -/
theorem readText_inverts : Inverts (readText invalid) text
    (fun value => (utf8 value).length < 18446744073709551616) :=
  ⟨readText_reads, readText_inv⟩

end Cbor

end Foundation
