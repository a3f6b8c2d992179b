import ConcurrencyKit.Internal

/-!
# The callbacks of a hash set

Both hash sets of the library are created with a hash function and an optional key
comparison, and tell keys apart in the same way: by the object itself, by the hash bits
packed into a slot word, and by the comparison. `Callbacks.Lawful` is what the callbacks
have to satisfy, and `Callbacks.Lawful.keys` the key equality that results.
-/

namespace ConcurrencyKit

/-- What keys are hashed and compared with. `hf` is the hash callback at the set's seed,
`compare` the optional key comparison, and `vmaBits` is `CK_MD_VMA_BITS` for a
pointer-packing build in object mode. -/
structure Callbacks (V : Type) where
  hf : V → BitVec 64
  compare : Option (V → V → Bool)
  vmaBits : Option Nat

namespace Callbacks

section Words

variable {V : Type}

/-- The hash bits a packed word carries (`ck_hs.c:488`, `ck_hs.c:592-594`, `ck_rhs.c:642`,
`ck_rhs.c:862`). -/
def tag (cfg : Callbacks V) (h : BitVec 64) : Nat :=
  match cfg.vmaBits with
  | none => 0
  | some bits => (h >>> 25).toNat % 2 ^ (64 - bits)

/-- The key test of the probe loops (`ck_hs.c:559-567`, `ck_rhs.c:712-721`): pointer
equality first, then the comparison callback if there is one. -/
def keyMatch [DecidableEq V] (cfg : Callbacks V) (val key : V) : Bool :=
  val == key || match cfg.compare with
    | none => false
    | some compare => compare val key

end Words

variable {V : Type} [DecidableEq V]

/-- The comparison is an equivalence and equal keys hash alike. -/
structure Lawful (cfg : Callbacks V) : Prop where
  equivalence : ∀ c, cfg.compare = some c → Equivalence (fun a b => c a b = true)
  consistent : ∀ c, cfg.compare = some c → ∀ a b, c a b = true → cfg.hf a = cfg.hf b

variable {cfg : Callbacks V}

theorem keyMatch_iff {a b : V} :
    cfg.keyMatch a b = true ↔ a = b ∨ ∃ c, cfg.compare = some c ∧ c a b = true := by
  unfold keyMatch
  cases cfg.compare with
  | none => simp
  | some c => simp

theorem keyMatch_refl (a : V) : cfg.keyMatch a a = true := keyMatch_iff.mpr (.inl rfl)

theorem Lawful.symm (hl : cfg.Lawful) {a b : V} (h : cfg.keyMatch a b = true) :
    cfg.keyMatch b a = true := by
  rcases keyMatch_iff.mp h with rfl | ⟨c, hc, hab⟩
  · exact h
  · exact keyMatch_iff.mpr (.inr ⟨c, hc, (hl.equivalence c hc).symm hab⟩)

theorem Lawful.trans (hl : cfg.Lawful) {a b d : V} (h : cfg.keyMatch a b = true)
    (h' : cfg.keyMatch b d = true) : cfg.keyMatch a d = true := by
  rcases keyMatch_iff.mp h with rfl | ⟨c, hc, hab⟩
  · exact h'
  · rcases keyMatch_iff.mp h' with rfl | ⟨c', hc', hbd⟩
    · exact h
    · have he : c = c' := Option.some.inj (hc.symm.trans hc')
      subst he
      exact keyMatch_iff.mpr (.inr ⟨c, hc, (hl.equivalence c hc).trans hab hbd⟩)

theorem Lawful.hf_eq (hl : cfg.Lawful) {a b : V} (h : cfg.keyMatch a b = true) :
    cfg.hf a = cfg.hf b := by
  rcases keyMatch_iff.mp h with rfl | ⟨c, hc, hab⟩
  · rfl
  · exact hl.consistent c hc a b hab

/-- Key equality. -/
def Lawful.keys (hl : cfg.Lawful) : Setoid V where
  r a b := cfg.keyMatch a b = true
  iseqv := ⟨keyMatch_refl, hl.symm, hl.trans⟩

end Callbacks

end ConcurrencyKit
