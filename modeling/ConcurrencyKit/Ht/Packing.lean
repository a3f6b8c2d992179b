import ConcurrencyKit.Ht.Probe
import ConcurrencyKit.Misc.Packed

/-!
# Entries of a pointer-packing build

A pointer-packing build keeps the key length in the bits of the key word that a pointer leaves
free, and a piece of the hash value in those of the value word (`ck_ht.h:197-217`). What fits comes
back. The probe loops compare the whole key word first, so that a string at the same address is
taken for a stored one of another length in a build without pointer packing, and in a packing build
only for an empty one (`ck_ht.c:333-359`).
-/

namespace ConcurrencyKit.Ht.Config

open ConcurrencyKit.Packed

variable {cfg : Config} {h key key' value : Word} {keyLength keyLength' : BitVec 16}

/-- `ck_ht_entry_value` (`ck_ht.h:186-195`). -/
def entryValue (cfg : Config) (e : Entry) : Word :=
  cfg.vmaBits.elim e.value fun bits => e.value &&& BitVec.ofNat 64 (2 ^ bits - 1)

/-- A pointer leaves bits free. -/
def Narrow (cfg : Config) : Prop := ∀ bits ∈ cfg.vmaBits, bits < 64

/-- A pointer of the target. -/
def Pointer (cfg : Config) (p : Word) : Prop := ∀ bits ∈ cfg.vmaBits, p.toNat < 2 ^ bits

/-- The length fits into the bits that a pointer leaves free. -/
def Short (cfg : Config) (keyLength : BitVec 16) : Prop :=
  ∀ bits ∈ cfg.vmaBits, keyLength.toNat < 2 ^ (64 - bits)

theorem toNat_keyLength (keyLength : BitVec 16) :
    (keyLength.setWidth 64).toNat = keyLength.toNat :=
  BitVec.toNat_setWidth_of_le (by decide)

/-- A key length comes back when it is short. -/
theorem setWidth_and_mask {k : Nat} :
    (keyLength.setWidth 64 &&& BitVec.ofNat 64 (2 ^ (64 - k) - 1)).setWidth 16 = keyLength ↔
      keyLength.toNat < 2 ^ (64 - k) := by
  have hle := Nat.mod_le keyLength.toNat (2 ^ (64 - k))
  rw [← BitVec.toNat_inj, BitVec.toNat_setWidth, toNat_and_mask _ (Nat.sub_le ..),
    toNat_keyLength, Nat.mod_eq_of_lt (hle.trans_lt keyLength.isLt)]
  exact Nat.mod_eq_iff_lt (Nat.two_pow_pos _).ne'

/-- What is read back is what was stored when it fits, and only then. -/
theorem entrySet_reads (hn : cfg.Narrow) :
    (cfg.entryKey (cfg.entrySet h key keyLength value) = key ∧
      cfg.entryKeyLength (cfg.entrySet h key keyLength value) = keyLength ∧
      cfg.entryValue (cfg.entrySet h key keyLength value) = value) ↔
    cfg.Pointer key ∧ cfg.Short keyLength ∧ cfg.Pointer value := by
  cases hv : cfg.vmaBits with
  | none =>
    simp only [entryKey, entryKeyLength, entryValue, entrySet, Pointer, Short, hv]
    simp
  | some bits =>
    have hlt : bits < 64 := hn bits hv
    simp only [entryKey, entryKeyLength, entryValue, entrySet, Pointer, Short, hv,
      Option.elim_some, Option.mem_def, Option.some.injEq, forall_eq', or_shiftLeft_and_mask,
      and_mask_eq_self hlt.le]
    refine and_congr_right fun hkey => and_congr_left fun _ => ?_
    rw [or_shiftLeft_ushiftRight _ hkey, setWidth_and_mask]

/-- The memoized piece of a hash value agrees with the one it was made of. -/
theorem memoMatch_entrySet (hvalue : cfg.Pointer value) :
    cfg.memoMatch h (cfg.entrySet h key keyLength value) = true := by
  cases hv : cfg.vmaBits with
  | none =>
    simp only [memoMatch, entrySet, hv]
    simp
  | some bits =>
    simp only [memoMatch, entrySet, hv, or_shiftLeft_ushiftRight _ (hvalue bits hv)]
    simp

/-- The key word of a stored entry is the bare pointer when no length is packed into it. -/
theorem entrySet_key_eq (hn : cfg.Narrow) (hkey : cfg.Pointer key) (hshort : cfg.Short keyLength)
    (hkey' : cfg.Pointer key') :
    (cfg.entrySet h key keyLength value).key = key' ↔
      key = key' ∧ (cfg.vmaBits.isSome → keyLength = 0) := by
  cases hv : cfg.vmaBits with
  | none =>
    simp only [entrySet, hv]
    simp
  | some bits =>
    have hlt : bits < 64 := hn bits hv
    have hwide := toNat_keyLength keyLength
    have hzero : keyLength.setWidth 64 = 0#64 ↔ keyLength = 0 := by
      rw [← BitVec.toNat_inj, hwide, ← BitVec.toNat_inj]
      rfl
    simp only [entrySet, hv, Option.isSome_some, forall_const]
    rw [or_shiftLeft_eq hlt.le (hkey bits hv) (hwide ▸ hshort bits hv) (hkey' bits hv), hzero]

/-- Equal packedStrings have one length. -/
theorem string_eq_iff :
    cfg.string key keyLength.toNat = cfg.string key' keyLength'.toNat ↔
      keyLength = keyLength' ∧ cfg.memcmp key key' keyLength'.toNat = true := by
  unfold memcmp
  constructor
  · intro hs
    have hlen := congrArg List.length hs
    rw [string_length, string_length, BitVec.toNat_inj] at hlen
    subst hlen
    exact ⟨rfl, beq_iff_eq.mpr hs⟩
  · rintro ⟨rfl, hs⟩
    exact beq_iff_eq.mp hs

/-- The entry of a string: what `ck_ht_entry_set` stores under the string's hash value. -/
def stringEntry (cfg : Config) (key : Word) (keyLength : BitVec 16) (value : Word) : Entry :=
  cfg.entrySet (cfg.h (cfg.string key keyLength.toNat)) key keyLength value

theorem stringEntry_reads (hn : cfg.Narrow) :
    (cfg.entryKey (cfg.stringEntry key keyLength value) = key ∧
      cfg.entryKeyLength (cfg.stringEntry key keyLength value) = keyLength ∧
      cfg.entryValue (cfg.stringEntry key keyLength value) = value) ↔
    cfg.Pointer key ∧ cfg.Short keyLength ∧ cfg.Pointer value := entrySet_reads hn

/-- The key test of the probe loops on the entry of a string. -/
theorem keyMatch_stringEntry (hn : cfg.Narrow) (hm : cfg.mode = .bytestring)
    (hkey : cfg.Pointer key) (hshort : cfg.Short keyLength) (hvalue : cfg.Pointer value)
    (hkey' : cfg.Pointer key') :
    cfg.keyMatch (cfg.h (cfg.string key' keyLength'.toNat)) key' keyLength'
        (cfg.stringEntry key keyLength value) = true ↔
      cfg.string key keyLength.toNat = cfg.string key' keyLength'.toNat ∨
        key = key' ∧ (cfg.vmaBits.isSome → keyLength = 0) := by
  obtain ⟨hread, hlen, -⟩ := (stringEntry_reads hn).mpr ⟨hkey, hshort, hvalue⟩
  have hword : (cfg.stringEntry key keyLength value).key = key' ↔ _ :=
    entrySet_key_eq hn hkey hshort hkey'
  simp only [keyMatch, hm, hread, hlen, hword, Bool.or_eq_true, Bool.and_eq_true, beq_iff_eq,
    true_and]
  constructor
  · rintro (hword | ⟨hl, -, hcmp⟩)
    · exact .inr hword
    · exact .inl (string_eq_iff.mpr ⟨hl, hcmp⟩)
  · rintro (hstring | hword)
    · obtain ⟨hl, hcmp⟩ := string_eq_iff.mp hstring
      refine .inr ⟨hl, ?_, hcmp⟩
      rw [← hstring]
      exact memoMatch_entrySet hvalue
    · exact .inl hword

/-- The hash value that `ck_ht_gc` and `ck_ht_grow_spmc` use for the entry of a string. -/
theorem entryHash_stringEntry (hn : cfg.Narrow) (hm : cfg.mode = .bytestring)
    (hkey : cfg.Pointer key) (hshort : cfg.Short keyLength) (hvalue : cfg.Pointer value) :
    cfg.entryHash (cfg.stringEntry key keyLength value) =
      cfg.h (cfg.string key keyLength.toNat) := by
  obtain ⟨hread, hlen, -⟩ := (stringEntry_reads hn).mpr ⟨hkey, hshort, hvalue⟩
  cases hv : cfg.vmaBits with
  | none => simp only [entryHash, stringEntry, entrySet, hv]
  | some bits =>
    have hhash (e : Entry) : cfg.entryHash e = cfg.hashOf e := by simp only [entryHash, hv]
    rw [hhash, hashOf, ident, hm, hread, hlen]

/-- The entry of a string gives back the key, the length and the value that it was made of if and
only if they fit. One that fits keeps its hash value when the map is collected or grown, and the
key test of the probe loops takes it for the entry of another string only when both have one
address and the comparison of key words does not see its length. -/
theorem string_entry_sound (hn : cfg.Narrow) (hm : cfg.mode = .bytestring) (key value : Word)
    (keyLength : BitVec 16) :
    let e := cfg.stringEntry key keyLength value
    (cfg.entryKey e = key ∧ cfg.entryKeyLength e = keyLength ∧ cfg.entryValue e = value ↔
      cfg.Pointer key ∧ cfg.Short keyLength ∧ cfg.Pointer value) ∧
    (cfg.Pointer key → cfg.Short keyLength → cfg.Pointer value →
      cfg.entryHash e = cfg.h (cfg.string key keyLength.toNat) ∧
      ∀ key' keyLength', cfg.Pointer key' →
        (cfg.keyMatch (cfg.h (cfg.string key' keyLength'.toNat)) key' keyLength' e = true ↔
          cfg.string key keyLength.toNat = cfg.string key' keyLength'.toNat ∨
            key = key' ∧ (cfg.vmaBits.isSome → keyLength = 0))) := by
  intro e
  refine ⟨stringEntry_reads hn, fun hkey hshort hvalue => ⟨?_, fun key' keyLength' hkey' => ?_⟩⟩
  · exact entryHash_stringEntry hn hm hkey hshort hvalue
  · exact keyMatch_stringEntry hn hm hkey hshort hvalue hkey'

/-- A table of strings in a build with pointers of 48 bits, with one byte for each address. -/
def packedStrings : Config where
  mode := .bytestring
  workloadDelete := false
  vmaBits := some 48
  h bytes := BitVec.ofNat 64 bytes.length <<< 32
  memory p := p.setWidth 8
  malloc _ := true
  wideShift _ _ := 0
  restarts := 1

/-- A copy of the string at another address is found. -/
theorem string_entry_sound_copy :
    let e := packedStrings.stringEntry 0x7f0000000010 3 0x7f0000001000
    packedStrings.entryValue e = 0x7f0000001000 ∧
      packedStrings.keyMatch (packedStrings.h (packedStrings.string 0x7f0000002010 3))
        0x7f0000002010 3 e = true := by
  intro e
  have pointer : ∀ p : Word, p.toNat < 2 ^ 48 → packedStrings.Pointer p := by
    rintro p hp bits ⟨⟩
    exact hp
  have short : packedStrings.Short 3 := by
    rintro bits ⟨⟩
    decide
  have narrow : packedStrings.Narrow := by
    rintro bits ⟨⟩
    decide
  have hkey := pointer 0x7f0000000010 (by decide)
  have hvalue := pointer 0x7f0000001000 (by decide)
  obtain ⟨reads, found⟩ :=
    string_entry_sound narrow rfl 0x7f0000000010 0x7f0000001000 (3 : BitVec 16)
  obtain ⟨-, hmatch⟩ := found hkey short hvalue
  refine ⟨(reads.mpr ⟨hkey, short, hvalue⟩).2.2, ?_⟩
  exact (hmatch 0x7f0000002010 3 (pointer _ (by decide))).mpr (.inl (by decide))

end ConcurrencyKit.Ht.Config
