import LocaleKeys.Table

/-! Pseudo-texts: every character of a text is replaced by an ideograph, so that
texts keep their length and show at once whether they went through the table. -/
namespace LocaleKeys

/-- A character of the block from which pseudo-texts are drawn. -/
abbrev Ideograph := { c : Char // 0x4E00 ≤ c.toNat ∧ c.toNat ≤ 0x9FA5 }

namespace Ideograph

theorem toNat_ofNat {n : Nat} (h : n.isValidChar) : (Char.ofNat n).toNat = n := by
  rw [Char.ofNat, dif_pos h]
  rfl

theorem in_block (n : Nat) :
    0x4E00 ≤ (Char.ofNat (0x4E00 + n % 0x51A6)).toNat ∧
      (Char.ofNat (0x4E00 + n % 0x51A6)).toNat ≤ 0x9FA5 := by
  have h : n % 0x51A6 < 0x51A6 := Nat.mod_lt _ (by decide)
  rw [toNat_ofNat (.inl (by omega))]
  omega

/-- The ideograph at a place of the block, counted around. -/
def nth (n : Nat) : Ideograph := ⟨Char.ofNat (0x4E00 + n % 0x51A6), in_block n⟩

end Ideograph

/-- One outcome of the draws: an ideograph for each place of each key's text. -/
abbrev Draws := String → Nat → Ideograph

/-- The text drawn for a key, as long as the text that it stands for. -/
def pseudoText (draws : Draws) (key text : String) : String :=
  String.ofList ((List.range text.length).map fun i => (draws key i).val)

/-- The table with every text replaced by one that was drawn. -/
def Table.pseudo (draws : Draws) (t : Table) : Table := t.mapTexts (pseudoText draws)

/-- Draws that follow from a seed. -/
def Draws.ofSeed (seed : Nat) : Draws := fun key i =>
  Ideograph.nth (((seed + 1) * (key.hash.toNat + 1) * (i + 1) * 2654435761 % UInt64.size) >>> 24)

end LocaleKeys
