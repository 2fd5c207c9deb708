import Equational.Number.Binary

/-!
# Exact conversions of floats

A finite pattern of a binary format has a significand and an exponent, and no
other pattern of the format has the same sign and magnitude.  So a double that
a smaller format holds exactly is found again when it is widened.
-/

namespace Equational
namespace Number

/-!
## Powers of two

A number has many pairs of a significand and an exponent.  The exponent of the leading bit does
not depend on the pair.
-/

theorem twoTo_pos (n : Nat) : 0 < twoTo n := Nat.two_pow_pos n

theorem twoTo_add (n m : Nat) : twoTo (n + m) = twoTo n * twoTo m := Nat.pow_add 2 n m

theorem twoTo_succ (n : Nat) : twoTo (n + 1) = 2 * twoTo n := by
  rw [Nat.add_comm, twoTo_add]
  rfl

theorem le_log2_iff {n k : Nat} (h : n ≠ 0) : k ≤ n.log2 ↔ twoTo k ≤ n := Nat.le_log2 h

theorem log2_lt_iff {n k : Nat} (h : n ≠ 0) : n.log2 < k ↔ n < twoTo k := Nat.log2_lt h

theorem log2_mul_twoTo {n : Nat} (h : n ≠ 0) (k : Nat) : (n * twoTo k).log2 = n.log2 + k := by
  have hne : n * twoTo k ≠ 0 := Nat.mul_ne_zero h (Nat.ne_of_gt (twoTo_pos k))
  apply Nat.le_antisymm
  · rw [← Nat.lt_succ_iff, log2_lt_iff hne, Nat.succ_eq_add_one, Nat.add_right_comm, twoTo_add]
    exact Nat.mul_lt_mul_of_pos_right ((log2_lt_iff h).mp (Nat.lt_succ_self _)) (twoTo_pos k)
  · rw [le_log2_iff hne, twoTo_add]
    exact Nat.mul_le_mul_right _ ((le_log2_iff h).mp (Nat.le_refl _))

/-- Two pairs of a significand and an exponent stand for the same magnitude. -/
def SameMagnitude (s : Nat) (e : Int) (t : Nat) (g : Int) : Prop :=
  s * twoTo (e - g).toNat = t * twoTo (g - e).toNat

namespace SameMagnitude

variable {s t : Nat} {e g : Int}

theorem symm (h : SameMagnitude s e t g) : SameMagnitude t g s e := Eq.symm h

theorem eq_mul (h : SameMagnitude s e t g) (hle : g ≤ e) : t = s * twoTo (e - g).toNat := by
  have hzero : (g - e).toNat = 0 := by omega
  unfold SameMagnitude at h
  rw [hzero] at h
  exact (h.trans (Nat.mul_one t)).symm

theorem of_eq_mul (hle : g ≤ e) (h : t = s * twoTo (e - g).toNat) : SameMagnitude s e t g := by
  have hzero : (g - e).toNat = 0 := by omega
  unfold SameMagnitude
  rw [hzero, h]
  exact (Nat.mul_one _).symm

theorem ne_zero (h : SameMagnitude s e t g) (hs : s ≠ 0) : t ≠ 0 := by
  intro ht
  unfold SameMagnitude at h
  rw [ht, Nat.zero_mul] at h
  exact Nat.mul_ne_zero hs (Nat.ne_of_gt (twoTo_pos _)) h

theorem log2_eq (h : SameMagnitude s e t g) (hs : s ≠ 0) : e + s.log2 = g + t.log2 := by
  have hlog : (s * twoTo (e - g).toNat).log2 = (t * twoTo (g - e).toNat).log2 := congrArg Nat.log2 h
  rw [log2_mul_twoTo hs, log2_mul_twoTo (h.ne_zero hs)] at hlog
  omega

end SameMagnitude

/-!
## Patterns

The three fields of a pattern are read back, and every number of the width of the format is a
pattern.
-/

namespace BinaryFormat

variable {f : BinaryFormat}

def exponent (f : BinaryFormat) (field : Nat) : Int :=
  1 - f.bias - f.fractionBits + (field - 1 : Nat)

def significand (f : BinaryFormat) (field fraction : Nat) : Nat :=
  if field = 0 then fraction else twoTo f.fractionBits + fraction

theorem topExponent_eq (h : f.exponentBits ≠ 0) : f.topExponent = 2 * f.bias + 1 := by
  rcases Nat.exists_eq_succ_of_ne_zero h with ⟨n, hn⟩
  have hpos := twoTo_pos n
  rw [topExponent, bias, hn, Nat.succ_eq_add_one, twoTo_succ, Nat.add_sub_cancel]
  omega

theorem pack_lt {negative : Bool} {field fraction : Nat} (hfield : field ≤ f.topExponent)
    (hfraction : fraction < twoTo f.fractionBits) :
    f.pack negative field fraction < twoTo (1 + f.exponentBits + f.fractionBits) := by
  have hpos := twoTo_pos f.exponentBits
  have hhigh : negative.toNat * twoTo f.exponentBits + field < twoTo (1 + f.exponentBits) := by
    rw [Nat.add_comm 1, twoTo_succ]
    unfold topExponent at hfield
    cases negative with
    | false =>
        rw [Bool.toNat_false, Nat.zero_mul]
        omega
    | true =>
        rw [Bool.toNat_true, Nat.one_mul]
        omega
  rw [pack, twoTo_add]
  calc _ < (negative.toNat * twoTo f.exponentBits + field) * twoTo f.fractionBits
        + twoTo f.fractionBits := Nat.add_lt_add_left hfraction _
    _ = (negative.toNat * twoTo f.exponentBits + field + 1) * twoTo f.fractionBits := by
        rw [Nat.add_mul _ 1, Nat.one_mul]
    _ ≤ _ := Nat.mul_le_mul_right _ hhigh

theorem pack_mod {fraction : Nat} (negative : Bool) (field : Nat)
    (h : fraction < twoTo f.fractionBits) :
    f.pack negative field fraction % twoTo f.fractionBits = fraction := by
  rw [pack, Nat.add_comm, Nat.add_mul_mod_self_right, Nat.mod_eq_of_lt h]

theorem pack_div {fraction : Nat} (negative : Bool) (field : Nat)
    (h : fraction < twoTo f.fractionBits) :
    f.pack negative field fraction / twoTo f.fractionBits =
      negative.toNat * twoTo f.exponentBits + field := by
  rw [pack, Nat.add_comm, Nat.add_mul_div_right _ _ (twoTo_pos _), Nat.div_eq_of_lt h, Nat.zero_add]

theorem lt_of_le_topExponent {field : Nat} (h : field ≤ f.topExponent) :
    field < twoTo f.exponentBits := by
  have hpos := twoTo_pos f.exponentBits
  unfold topExponent at h
  omega

theorem ofBits_pack {negative : Bool} {field fraction : Nat} (hfield : field ≤ f.topExponent)
    (hfraction : fraction < twoTo f.fractionBits) :
    BinaryValue.ofBits f (f.pack negative field fraction) =
      if field = f.topExponent then
        if fraction = 0 then .infinity negative else .nan negative fraction
      else .finite negative (f.significand field fraction) (f.exponent field) := by
  have hlt := lt_of_le_topExponent hfield
  have hmod : (negative.toNat * twoTo f.exponentBits + field) % twoTo f.exponentBits = field := by
    rw [Nat.add_comm, Nat.add_mul_mod_self_right, Nat.mod_eq_of_lt hlt]
  have hsign : (f.pack negative field fraction / twoTo (f.fractionBits + f.exponentBits) % 2 == 1) =
      negative := by
    rw [twoTo_add, ← Nat.div_div_eq_div_mul, pack_div negative field hfraction, Nat.add_comm,
      Nat.add_mul_div_right _ _ (twoTo_pos _), Nat.div_eq_of_lt hlt]
    cases negative <;> rfl
  unfold BinaryValue.ofBits
  simp only [pack_mod negative field hfraction, pack_div negative field hfraction, hmod, hsign]
  unfold significand exponent
  split
  · rfl
  · split
    · rename_i hzero
      rw [hzero]
      simp
    · rfl

theorem exists_pack {bits : Nat} (h : bits < twoTo (1 + f.exponentBits + f.fractionBits)) :
    ∃ negative field fraction, field ≤ f.topExponent ∧ fraction < twoTo f.fractionBits ∧
      bits = f.pack negative field fraction := by
  have hpos := twoTo_pos f.exponentBits
  have hhigh : bits / twoTo f.fractionBits < 2 * twoTo f.exponentBits := by
    rw [Nat.div_lt_iff_lt_mul (twoTo_pos _), ← twoTo_succ, ← twoTo_add, Nat.add_comm _ 1]
    exact h
  have hsign : bits / twoTo f.fractionBits / twoTo f.exponentBits < 2 :=
    (Nat.div_lt_iff_lt_mul hpos).mpr hhigh
  refine ⟨bits / twoTo f.fractionBits / twoTo f.exponentBits == 1,
    bits / twoTo f.fractionBits % twoTo f.exponentBits, bits % twoTo f.fractionBits, ?_,
    Nat.mod_lt _ (twoTo_pos _), ?_⟩
  · have hmod := Nat.mod_lt (bits / twoTo f.fractionBits) hpos
    unfold topExponent
    omega
  · have hnat : (bits / twoTo f.fractionBits / twoTo f.exponentBits == 1).toNat =
        bits / twoTo f.fractionBits / twoTo f.exponentBits := by
      generalize bits / twoTo f.fractionBits / twoTo f.exponentBits = sign at hsign ⊢
      cases sign with
      | zero => rfl
      | succ n =>
          have hn : n = 0 := by omega
          rw [hn]
          rfl
    rw [pack, hnat, Nat.div_add_mod', Nat.div_add_mod']

end BinaryFormat

/-!
## Exact conversion

A format keeps the bits down to some weight, and these hold a number exactly if they have its
magnitude.
-/

namespace BinaryValue

open BinaryFormat

variable {f : BinaryFormat} {negative : Bool} {s : Nat} {e : Int}

def weight (f : BinaryFormat) (s : Nat) (e : Int) : Int :=
  max (f.exponent 0) (e + s.log2 - f.fractionBits)

def patternOf (f : BinaryFormat) (negative : Bool) (w : Int) (kept : Nat) : Nat :=
  if kept < twoTo f.fractionBits then f.pack negative 0 kept
  else f.pack negative ((w - f.exponent 0).toNat + 1) (kept - twoTo f.fractionBits)

theorem kept_eq_some_iff {w : Int} {kept : Nat} :
    (if w ≤ e then some (s * twoTo (e - w).toNat)
      else if s % twoTo (w - e).toNat = 0 then some (s / twoTo (w - e).toNat) else none) =
      some kept ↔ SameMagnitude s e kept w := by
  split
  · rename_i hle
    rw [Option.some.injEq]
    exact ⟨fun h => .of_eq_mul hle h.symm, fun h => (h.eq_mul hle).symm⟩
  · rename_i hlt
    have hle : e ≤ w := by omega
    have hpos := twoTo_pos (w - e).toNat
    constructor
    · intro h
      split at h
      · rename_i hmod
        rw [← Option.some.inj h]
        exact (SameMagnitude.of_eq_mul hle
          (Nat.div_mul_cancel (Nat.dvd_of_mod_eq_zero hmod)).symm).symm
      · cases h
    · intro h
      rw [h.symm.eq_mul hle, if_pos (Nat.mul_mod_left _ _), Nat.mul_div_cancel _ hpos]

theorem exactFinite?_eq_some_iff (hs : s ≠ 0) {bits : Nat} :
    exactFinite? f negative s e = some bits ↔
      ∃ kept, SameMagnitude s e kept (weight f s e) ∧ e + s.log2 ≤ f.bias ∧
        patternOf f negative (weight f s e) kept = bits := by
  have hlowest : (1 : Int) - f.bias - f.fractionBits = f.exponent 0 := by
    unfold exponent
    simp
  unfold exactFinite? weight patternOf
  simp only [if_neg hs, hlowest, ← kept_eq_some_iff]
  generalize (if max (f.exponent 0) (e + s.log2 - f.fractionBits) ≤ e then _ else _) = kept?
  cases kept? with
  | none => simp
  | some kept =>
      by_cases hbias : e + s.log2 ≤ f.bias
      · by_cases hsmall : kept < twoTo f.fractionBits
        · simp [hbias, hsmall]
        · simp [hbias, hsmall]
      · simp [hbias, Int.lt_of_not_ge hbias]

theorem exactFinite?_of_sameMagnitude {field fraction : Nat} (hbits : f.exponentBits ≠ 0)
    (hfield : field < f.topExponent) (hfraction : fraction < twoTo f.fractionBits)
    (h : SameMagnitude s e (f.significand field fraction) (f.exponent field)) :
    exactFinite? f negative s e = some (f.pack negative field fraction) := by
  have htop := topExponent_eq hbits
  by_cases hs : s = 0
  · have hzero : f.significand field fraction = 0 :=
      Decidable.byContradiction fun hne => h.symm.ne_zero hne hs
    unfold significand at hzero
    have hpos := twoTo_pos f.fractionBits
    split at hzero
    · rename_i hfield
      rw [exactFinite?, if_pos hs, hfield, hzero]
    · omega
  · rw [exactFinite?_eq_some_iff hs]
    have hlog := h.log2_eq hs
    have hne := h.ne_zero hs
    have hleading : weight f s e = f.exponent field ∧ e + s.log2 ≤ f.bias := by
      unfold weight
      rw [hlog]
      unfold significand at hne ⊢
      split at hne
      · rename_i hzero
        have hlt := (log2_lt_iff hne).mpr hfraction
        rw [if_pos hzero, hzero]
        unfold exponent
        omega
      · rename_i hpositive
        have hlow : f.fractionBits ≤ (twoTo f.fractionBits + fraction).log2 :=
          (le_log2_iff hne).mpr (Nat.le_add_right _ _)
        have hhigh : (twoTo f.fractionBits + fraction).log2 < f.fractionBits + 1 := by
          rw [log2_lt_iff hne, twoTo_succ]
          omega
        rw [if_neg hpositive]
        unfold exponent
        omega
    refine ⟨f.significand field fraction, ?_, hleading.2, ?_⟩
    · rw [hleading.1]
      exact h
    · rw [hleading.1]
      unfold patternOf significand exponent
      by_cases hzero : field = 0
      · rw [if_pos hzero, if_pos hfraction, hzero]
      · rw [if_neg hzero, if_neg (by omega)]
        congr 1 <;> omega

theorem sameMagnitude_of_exactFinite? {bits : Nat} (hbits : f.exponentBits ≠ 0)
    (h : exactFinite? f negative s e = some bits) :
    ∃ field fraction, field < f.topExponent ∧ fraction < twoTo f.fractionBits ∧
      bits = f.pack negative field fraction ∧
      SameMagnitude s e (f.significand field fraction) (f.exponent field) := by
  have htop := topExponent_eq hbits
  by_cases hs : s = 0
  · rw [exactFinite?, if_pos hs, Option.some.injEq] at h
    refine ⟨0, 0, by omega, twoTo_pos _, h.symm, ?_⟩
    unfold SameMagnitude significand
    rw [hs, if_pos rfl, Nat.zero_mul, Nat.zero_mul]
  · rcases (exactFinite?_eq_some_iff hs).mp h with ⟨kept, hkept, hbias, rfl⟩
    have hlog := hkept.log2_eq hs
    have hne := hkept.ne_zero hs
    unfold patternOf
    by_cases hsmall : kept < twoTo f.fractionBits
    · have hlt := (log2_lt_iff hne).mpr hsmall
      have hweight : weight f s e = f.exponent 0 := by
        unfold weight at hlog ⊢
        omega
      rw [if_pos hsmall]
      refine ⟨0, kept, by omega, hsmall, rfl, ?_⟩
      rw [significand, if_pos rfl, ← hweight]
      exact hkept
    · have hlow : f.fractionBits ≤ kept.log2 := (le_log2_iff hne).mpr (Nat.le_of_not_lt hsmall)
      have hhigh : kept.log2 < f.fractionBits + 1 := by
        unfold weight at hlog
        omega
      rw [log2_lt_iff hne, twoTo_succ] at hhigh
      rw [if_neg hsmall]
      refine ⟨_, _, ?_, ?_, rfl, ?_⟩
      · unfold weight exponent at *
        omega
      · omega
      · have hexponent : f.exponent ((weight f s e - f.exponent 0).toNat + 1) = weight f s e := by
          unfold weight exponent
          omega
        rw [hexponent, significand, if_neg (Nat.succ_ne_zero _), Nat.add_sub_cancel' (by omega)]
        exact hkept

end BinaryValue

/-!
## Doubles

A double that a smaller format holds exactly is found again, and so is an infinity; of the NaNs
one is found for all.
-/

namespace Binary64

open BinaryFormat BinaryValue

variable {x : Binary64}

def IsNumber (x : Binary64) : Prop := ∀ negative payload, x.value ≠ .nan negative payload

instance (x : Binary64) : Decidable x.IsNumber :=
  match h : x.value with
  | .nan negative payload => .isFalse fun hnumber => hnumber negative payload h
  | .finite .. | .infinity .. => .isTrue fun _ _ hnan => nomatch h.symm.trans hnan

/-- The NaN that is read for every NaN that was written. -/
def quietNaN : Binary64 := ⟨0x7FF8000000000000⟩

def IsQuiet (x : Binary64) : Prop :=
  ∀ negative payload, x.value = .nan negative payload → x = quietNaN

theorem IsNumber.isQuiet (h : x.IsNumber) : x.IsQuiet :=
  fun negative payload hvalue => absurd hvalue (h negative payload)

theorem exists_pack (x : Binary64) : ∃ negative field fraction,
    field ≤ double.topExponent ∧ fraction < twoTo double.fractionBits ∧
      x.bits = (double.pack negative field fraction).toUInt64 ∧
      x.value = .ofBits .double (double.pack negative field fraction) := by
  rcases @BinaryFormat.exists_pack double _ x.bits.toNat_lt with
    ⟨negative, field, fraction, hfield, hfraction, hbits⟩
  refine ⟨negative, field, fraction, hfield, hfraction, ?_, by rw [value, hbits]⟩
  rw [← hbits]
  exact UInt64.ofNat_toNat.symm

theorem widen_of_narrow? {f : BinaryFormat} (hexponent : f.exponentBits ≠ 0) {bits : Nat}
    (h : x.narrow? f = some bits) :
    widen f bits = x ∧ bits < twoTo (1 + f.exponentBits + f.fractionBits) := by
  rcases x.exists_pack with ⟨negative, field, fraction, hfield, hfraction, hbits, hvalue⟩
  rw [ofBits_pack hfield hfraction] at hvalue
  have htop : field ≠ double.topExponent := by
    intro htop
    rw [if_pos htop] at hvalue
    unfold narrow? at h
    rw [hvalue] at h
    by_cases hzero : fraction = 0
    · rw [if_pos hzero] at h
      cases h
    · rw [if_neg hzero] at h
      cases h
  rw [if_neg htop] at hvalue
  unfold narrow? at h
  rw [hvalue] at h
  rcases sameMagnitude_of_exactFinite? hexponent h with
    ⟨field', fraction', hfield', hfraction', rfl, hsame⟩
  refine ⟨?_, pack_lt (Nat.le_of_lt hfield') hfraction'⟩
  have hfound : exactFinite? double negative (f.significand field' fraction') (f.exponent field') =
      some (double.pack negative field fraction) :=
    exactFinite?_of_sameMagnitude (by decide) (Nat.lt_of_le_of_ne hfield htop) hfraction hsame.symm
  unfold widen
  rw [ofBits_pack (Nat.le_of_lt hfield') hfraction', if_neg (Nat.ne_of_lt hfield')]
  simp only [hfound, Option.getD_some, ← hbits]

theorem widen_of_infinity {negative : Bool} (h : x.value = .infinity negative) (f : BinaryFormat) :
    widen f (f.pack negative f.topExponent 0) = x := by
  rcases x.exists_pack with ⟨negative', field, fraction, hfield, hfraction, hbits, hvalue⟩
  rw [h, ofBits_pack hfield hfraction] at hvalue
  by_cases htop : field = double.topExponent
  · by_cases hzero : fraction = 0
    · rw [if_pos htop, if_pos hzero] at hvalue
      unfold widen
      rw [ofBits_pack (Nat.le_refl _) (twoTo_pos _), if_pos rfl, if_pos rfl]
      simp only [BinaryValue.infinity.inj hvalue, ← htop]
      rw [← hzero, ← hbits]
    · rw [if_pos htop, if_neg hzero] at hvalue
      cases hvalue
  · rw [if_neg htop] at hvalue
    cases hvalue

end Binary64

end Number
end Equational
