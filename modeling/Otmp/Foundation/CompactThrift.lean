import Otmp.Foundation.Bytes

/-!
# The compact encoding of Thrift values

The encodings of values are given by their kind, by whether they stand in a field of a struct,
where a boolean takes no byte of its own, and by their nesting. Lengths and counts are declared
before what they measure; the relation lists the declarations with the bytes that follow them.
-/

namespace Foundation.CompactThrift

/-- A number in groups of seven bits, the lowest first: at most ten groups, of which the tenth
holds one bit. The first argument is the index of the first group. -/
inductive Varint : ℕ → List UInt8 → ℕ → Prop
  | last {group : ℕ} {b : UInt8} : group < 10 → b.toNat < 128 → (group = 9 → b.toNat ≤ 1) →
      Varint group [b] b.toNat
  | more {group n : ℕ} {b : UInt8} {rest : List UInt8} : group < 9 → 128 ≤ b.toNat →
      Varint (group + 1) rest n → Varint group (b :: rest) (b.toNat % 128 + 128 * n)

/-- A declared amount and the number of bytes that follow the declaration. -/
structure Declaration where
  amount : ℕ
  following : ℕ

/-- The declaration in front of further bytes, which come before what it had been followed by. -/
def Declaration.before (count : ℕ) (d : Declaration) : Declaration :=
  { d with following := d.following + count }

/-- The count of a list is in its header, or behind it when the header has all bits set. -/
inductive ListSize (header : UInt8) : List UInt8 → ℕ → Prop
  | short : header.toNat / 16 ≠ 15 → ListSize header [] (header.toNat / 16)
  | long {size : List UInt8} {count : ℕ} : header.toNat / 16 = 15 → Varint 0 size count →
      ListSize header size count

/-- The identifier of a field is a difference in the header, or it stands behind the header. -/
inductive FieldId (header : UInt8) : List UInt8 → Prop
  | short : header.toNat / 16 ≠ 0 → FieldId header []
  | long {id : List UInt8} {n : ℕ} : header.toNat / 16 = 0 → Varint 0 id n → FieldId header id

variable (limit : ℕ)

mutual

/-- The encoding of a value of a kind, and the declarations in it. -/
inductive Value : ℕ → Bool → ℕ → List UInt8 → List Declaration → Prop
  | inlineBool {kind depth : ℕ} : depth ≤ limit → kind = 1 ∨ kind = 2 → Value kind true depth [] []
  | bool {kind depth : ℕ} {b : UInt8} : depth ≤ limit → kind = 1 ∨ kind = 2 → b = 1 ∨ b = 2 →
      Value kind false depth [b] []
  | byte {field : Bool} {depth : ℕ} {b : UInt8} : depth ≤ limit → Value 3 field depth [b] []
  | integer {kind depth n : ℕ} {field : Bool} {enc : List UInt8} : depth ≤ limit →
      kind = 4 ∨ kind = 5 ∨ kind = 6 → Varint 0 enc n → Value kind field depth enc []
  | double {field : Bool} {depth : ℕ} {enc : List UInt8} : depth ≤ limit → enc.length = 8 →
      Value 7 field depth enc []
  | binary {field : Bool} {depth : ℕ} {size payload : List UInt8} : depth ≤ limit →
      Varint 0 size payload.length →
      Value 8 field depth (size ++ payload) [⟨payload.length, payload.length⟩]
  | list {kind depth count : ℕ} {field : Bool} {header : UInt8} {size elements : List UInt8}
      {decls : List Declaration} : depth ≤ limit → kind = 9 ∨ kind = 10 →
      ListSize header size count →
      Many (List.replicate count (header.toNat % 16)) (depth + 1) elements decls →
      Value kind field depth (header :: (size ++ elements)) (⟨count, elements.length⟩ :: decls)
  | emptyMap {field : Bool} {depth : ℕ} {size : List UInt8} : depth ≤ limit → Varint 0 size 0 →
      Value 11 field depth size [⟨0, 0⟩]
  | map {field : Bool} {depth count : ℕ} {kinds : UInt8} {size entries : List UInt8}
      {decls : List Declaration} : depth ≤ limit → Varint 0 size count → 0 < count →
      Many (List.replicate count [kinds.toNat / 16, kinds.toNat % 16]).flatten (depth + 1) entries
        decls →
      Value 11 field depth (size ++ kinds :: entries) (⟨2 * count, entries.length⟩ :: decls)
  | struct {field : Bool} {depth : ℕ} {enc : List UInt8} {decls : List Declaration} :
      depth ≤ limit → Fields (depth + 1) enc decls → Value 12 field depth enc decls
  | uuid {field : Bool} {depth : ℕ} {enc : List UInt8} : depth ≤ limit → enc.length = 16 →
      Value 13 field depth enc []

/-- The encodings of values of given types one behind the other, with all their declarations. -/
inductive Many : List ℕ → ℕ → List UInt8 → List Declaration → Prop
  | nil {depth : ℕ} : Many [] depth [] []
  | cons {kind depth : ℕ} {kinds : List ℕ} {enc rest : List UInt8} {decls more : List Declaration} :
      Value kind false depth enc decls → Many kinds depth rest more →
      Many (kind :: kinds) depth (enc ++ rest) (decls.map (Declaration.before rest.length) ++ more)

/-- The fields of a struct up to the byte that ends it. -/
inductive Fields : ℕ → List UInt8 → List Declaration → Prop
  | stop {depth : ℕ} : Fields depth [0] []
  | field {depth : ℕ} {header : UInt8} {id enc rest : List UInt8} {decls more : List Declaration} :
      header ≠ 0 → FieldId header id → Value (header.toNat % 16) true depth enc decls →
      Fields depth rest more →
      Fields depth (header :: (id ++ (enc ++ rest)))
        (decls.map (Declaration.before rest.length) ++ more)

end

/-- A declared amount is at most the number of bytes that follow it. -/
def Declaration.Fits (d : Declaration) : Prop := d.amount ≤ d.following

section Lengths

variable {limit}

/-- A number has at least one group. -/
theorem Varint.length_pos {group n : ℕ} {enc : List UInt8} (h : Varint group enc n) :
    0 < enc.length := by
  cases h <;> simp

/-- A number of groups stays within 64 bits, wherever it starts: the tenth group holds one bit. -/
private theorem Varint.bound {group n : ℕ} {enc : List UInt8} (h : Varint group enc n) :
    (n + 1) * 2 ^ (7 * group) ≤ 2 ^ 64 := by
  induction h with
  | @last group b hgroup hlast hone =>
    obtain hlt | rfl : group < 9 ∨ group = 9 := by omega
    · have hpow : 2 ^ (7 * group) ≤ 2 ^ 56 := Nat.pow_le_pow_right (by omega) (by omega)
      have hle : (b.toNat + 1) * 2 ^ (7 * group) ≤ 128 * 2 ^ 56 := Nat.mul_le_mul (by omega) hpow
      omega
    · have hle : (b.toNat + 1) * 2 ^ (7 * 9) ≤ 2 * 2 ^ (7 * 9) :=
        Nat.mul_le_mul_right _ (by have := hone rfl; omega)
      omega
  | @more group n b rest hgroup hlast hrest ih =>
    have hmod := Nat.mod_lt b.toNat (show 128 > 0 by omega)
    have hpow : 2 ^ (7 * (group + 1)) = 128 * 2 ^ (7 * group) := by
      rw [Nat.mul_add, Nat.pow_add, Nat.mul_comm]
    rw [hpow, ← Nat.mul_assoc] at ih
    refine Nat.le_trans (Nat.mul_le_mul_right _ ?_) ih
    omega

/-- A number of at most ten groups fits a word. -/
theorem Varint.lt {n : ℕ} {enc : List UInt8} (h : Varint 0 enc n) : n < 2 ^ 64 := by
  have hbound := h.bound
  omega

/-- The size of a list fits 64 bits, in the header as well as behind it. -/
theorem ListSize.lt {header : UInt8} {count : ℕ} {size : List UInt8}
    (h : ListSize header size count) : count < 2 ^ 64 := by
  cases h with
  | short =>
    have hlt := header.toNat_lt
    omega
  | long _ hvarint => exact hvarint.lt

/-- The fields of a struct take at least the byte that stops them. -/
theorem Fields.length_pos {depth : ℕ} {enc : List UInt8} {decls : List Declaration}
    (h : Fields limit depth enc decls) : 0 < enc.length := by
  cases h <;> simp

/-- A value outside of a field takes at least one byte. -/
theorem Value.length_pos {kind depth : ℕ} {enc : List UInt8} {decls : List Declaration}
    (h : Value limit kind false depth enc decls) : 0 < enc.length := by
  cases h with
  | bool => exact Nat.one_pos
  | byte => exact Nat.one_pos
  | integer _ _ hn => exact hn.length_pos
  | double _ hlength => omega
  | binary _ hsize =>
    have hpos := hsize.length_pos
    rw [List.length_append]
    omega
  | list => exact Nat.succ_pos _
  | emptyMap _ hsize => exact hsize.length_pos
  | map _ hsize =>
    rw [List.length_append, List.length_cons]
    omega
  | struct _ hfields => exact hfields.length_pos
  | uuid _ hlength => omega

/-- Values are nested to the limit at most. -/
theorem Value.depth_le {kind depth : ℕ} {field : Bool} {enc : List UInt8}
    {decls : List Declaration} (h : Value limit kind field depth enc decls) : depth ≤ limit := by
  cases h <;> assumption

/-- Values one behind the other take at least one byte each. -/
theorem Many.length_le {depth : ℕ} {kinds : List ℕ} {enc : List UInt8} {decls : List Declaration}
    (h : Many limit kinds depth enc decls) : kinds.length ≤ enc.length := by
  induction kinds generalizing enc decls with
  | nil => exact Nat.zero_le _
  | cons kind kinds ih =>
    cases h with
    | cons hfirst hrest =>
      have hpos := hfirst.length_pos
      have hle := ih hrest
      rw [List.length_cons, List.length_append]
      omega

/-- A bound that holds stays true in front of further bytes. -/
theorem Declaration.Fits.before {d : Declaration} (h : d.Fits) (count : ℕ) :
    (d.before count).Fits := Nat.le_add_right_of_le h

/-- Declarations that fit still do in front of further bytes. -/
private theorem fits_append {count : ℕ} {decls more : List Declaration}
    (h : ∀ d ∈ decls, d.Fits) (hmore : ∀ d ∈ more, d.Fits) :
    ∀ d ∈ decls.map (Declaration.before count) ++ more, d.Fits := by
  intro d hd
  obtain hd | hd := List.mem_append.mp hd
  · obtain ⟨first, hfirst, rfl⟩ := List.mem_map.mp hd
    exact (h first hfirst).before count
  · exact hmore d hd

/-- One more declaration that fits what follows it. -/
private theorem fits_cons {amount following : ℕ} {decls : List Declaration}
    (h : amount ≤ following) (hdecls : ∀ d ∈ decls, d.Fits) :
    ∀ d ∈ (⟨amount, following⟩ : Declaration) :: decls, d.Fits := by
  intro d hd
  obtain rfl | hd := List.mem_cons.mp hd
  · exact h
  · exact hdecls d hd

/-- Without declarations there is nothing to fit. -/
private theorem fits_nil : ∀ d ∈ ([] : List Declaration), d.Fits := fun _ hd => nomatch hd

/-- The kinds of the keys and values of a map. -/
theorem length_kinds (count : ℕ) (key value : ℕ) :
    (List.replicate count [key, value]).flatten.length = 2 * count := by
  induction count with
  | zero => rfl
  | succ count ih =>
    rw [List.replicate_succ, List.flatten_cons, List.length_append, ih]
    simp only [List.length_cons, List.length_nil]
    omega

/-- A list takes at least as many bytes as it has elements. -/
theorem Many.replicate_le {kind depth count : ℕ} {enc : List UInt8} {decls : List Declaration}
    (h : Many limit (List.replicate count kind) depth enc decls) : count ≤ enc.length := by
  have hle := h.length_le
  rwa [List.length_replicate] at hle

/-- A map takes at least two bytes for each entry. -/
theorem Many.entries_le {key value depth count : ℕ} {enc : List UInt8} {decls : List Declaration}
    (h : Many limit (List.replicate count [key, value]).flatten depth enc decls) :
    2 * count ≤ enc.length := by
  have hle := h.length_le
  rwa [length_kinds] at hle

mutual

/-- **Declarations fit.** Whatever a value declares, at least as many bytes follow. -/
theorem Value.fits {kind depth : ℕ} {field : Bool} {enc : List UInt8} {decls : List Declaration} :
    Value limit kind field depth enc decls → ∀ d ∈ decls, d.Fits
  | .inlineBool _ _ => fits_nil
  | .bool _ _ _ => fits_nil
  | .byte _ => fits_nil
  | .integer _ _ _ => fits_nil
  | .double _ _ => fits_nil
  | .binary _ _ => fits_cons (Nat.le_refl _) fits_nil
  | .list _ _ _ hmany => fits_cons hmany.replicate_le hmany.fits
  | .emptyMap _ _ => fits_cons (Nat.le_refl _) fits_nil
  | .map _ _ _ hmany => fits_cons hmany.entries_le hmany.fits
  | .struct _ hfields => hfields.fits
  | .uuid _ _ => fits_nil

/-- Whatever a run of values declares is there: every declared amount fits the bytes behind it. -/
theorem Many.fits {depth : ℕ} {kinds : List ℕ} {enc : List UInt8} {decls : List Declaration} :
    Many limit kinds depth enc decls → ∀ d ∈ decls, d.Fits
  | .nil => fits_nil
  | .cons hfirst hrest => fits_append hfirst.fits hrest.fits

/-- Whatever the fields of a struct declare is there. -/
theorem Fields.fits {depth : ℕ} {enc : List UInt8} {decls : List Declaration} :
    Fields limit depth enc decls → ∀ d ∈ decls, d.Fits
  | .stop => fits_nil
  | .field _ _ hvalue hrest => fits_append hvalue.fits hrest.fits

end

end Lengths

end Foundation.CompactThrift
