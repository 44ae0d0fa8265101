import Containers.Proofs.Hash.Reference
import Mathlib.Logic.Function.Basic

/-!
# Absorbing loses nothing of the state

A round is two layers (`State.round_eq`), and a layer is two half rounds side by side. A half round
adds one word to another and joins the second, rotated, with the sum. Both words come back from what
it leaves (`halfRoundBack_halfRound`): the second by joining with the sum again and rotating the
rest of the way round, and then the first by subtracting. So a layer has an inverse, and with the
layers undone from the last to the first a round has one as well (`State.unround`). Joining a word
of the state with a word of the message undoes itself, hence absorbing a word is a bijection on
states (`State.bijective_compress`), and so is absorbing any number of them
(`State.bijective_foldl_compress`). Different keys begin with different states, and no message
brings them together.
-/

namespace Containers.SipHash

/-! ## Half rounds -/

/-- Two rotations that make up a whole turn change nothing. -/
theorem rotateUp_rotateUp {n m : UInt64} (hn : 0 < n.toNat) (hm : 0 < m.toNat)
    (hturn : n.toNat + m.toNat = 64) (w : UInt64) : rotateUp (rotateUp w n) m = w := by
  have hn' : n.toNat < 64 := by omega
  have hm' : m.toNat < 64 := by omega
  apply UInt64.toBitVec_inj.1
  rw [toBitVec_rotateUp _ _ hm hm', toBitVec_rotateUp _ _ hn hn']
  ext i hi
  simp only [BitVec.getElem_rotateLeft, Nat.mod_eq_of_lt hn', Nat.mod_eq_of_lt hm']
  -- What the first rotation carries over the top is what the second does not, and the reverse.
  split
  next hlow =>
    rw [dif_neg (by omega)]
    congr 1
    omega
  next hhigh =>
    rw [dif_pos (by omega)]
    congr 1
    omega

/-- Joining a word twice undoes it. -/
theorem xor_xor_cancel (a w : UInt64) : a ^^^ w ^^^ w = a := by
  rw [UInt64.xor_assoc, UInt64.xor_self, UInt64.xor_zero]

/-- A half round: the second word is added to the first, rotated and joined with the sum. -/
def halfRound (places a b : UInt64) : UInt64 × UInt64 := (a + b, rotateUp b places ^^^ (a + b))

/-- The words that a half round has been carried out on. -/
def halfRoundBack (places a b : UInt64) : UInt64 × UInt64 :=
  let before := rotateUp (b ^^^ a) (64 - places)
  (a - before, before)

/-- A rotation by some places, but not all the way round. -/
def Turns (places : UInt64) : Prop := 0 < places.toNat ∧ places.toNat < 64
deriving Decidable

namespace Turns

variable {places : UInt64}

/-- The rotation back is by the places that are left of a word. -/
theorem toNat_sub (h : Turns places) : (64 - places).toNat = 64 - places.toNat :=
  UInt64.toNat_sub_of_le _ _ (UInt64.le_iff_toNat_le.2 (Nat.le_of_lt h.2))

/-- A half round can be undone. -/
theorem halfRoundBack_halfRound (h : Turns places) (a b : UInt64) :
    halfRoundBack places (halfRound places a b).1 (halfRound places a b).2 = (a, b) := by
  have hrest := h.toNat_sub
  obtain ⟨hpos, hlt⟩ := h
  have hbefore : rotateUp (rotateUp b places ^^^ (a + b) ^^^ (a + b)) (64 - places) = b := by
    rw [xor_xor_cancel]
    exact rotateUp_rotateUp hpos (by omega) (by omega) b
  simp only [halfRound, halfRoundBack, hbefore, UInt64.add_sub_cancel]

/-- Every pair of words comes of a half round. -/
theorem halfRound_halfRoundBack (h : Turns places) (a b : UInt64) :
    halfRound places (halfRoundBack places a b).1 (halfRoundBack places a b).2 = (a, b) := by
  have hrest := h.toNat_sub
  obtain ⟨hpos, hlt⟩ := h
  have hafter : rotateUp (rotateUp (b ^^^ a) (64 - places)) places = b ^^^ a :=
    rotateUp_rotateUp (by omega) hpos (by omega) _
  simp only [halfRound, halfRoundBack, hafter, UInt64.sub_add_cancel, xor_xor_cancel]

end Turns

namespace State

/-! ## Rounds -/

/-- Two half rounds over the neighbours. The first and the third word change places, and the halves
of the one that was first. -/
def layer (places places' : UInt64) (s : State) : State :=
  let front := halfRound places s.v0 s.v1
  let back := halfRound places' s.v2 s.v3
  ⟨back.1, front.2, rotateUp front.1 32, back.2⟩

/-- The state before a layer. -/
def layerBack (places places' : UInt64) (s : State) : State :=
  let front := halfRoundBack places (rotateUp s.v2 32) s.v1
  let back := halfRoundBack places' s.v0 s.v3
  ⟨front.1, front.2, back.1, back.2⟩

/-- Two rotations by half a word are one all the way round. -/
theorem rotateUp_half_turn (w : UInt64) : rotateUp (rotateUp w 32) 32 = w :=
  rotateUp_rotateUp (by decide) (by decide) rfl w

section
variable {places places' : UInt64} (h : Turns places) (h' : Turns places')
include h h'

/-- A layer can be undone. -/
theorem layerBack_layer (s : State) : layerBack places places' (layer places places' s) = s := by
  simp only [layer, layerBack, rotateUp_half_turn, h.halfRoundBack_halfRound,
    h'.halfRoundBack_halfRound]

/-- Every state comes of a layer. -/
theorem layer_layerBack (s : State) : layer places places' (layerBack places places' s) = s := by
  simp only [layer, layerBack, h.halfRound_halfRoundBack, h'.halfRound_halfRoundBack,
    rotateUp_half_turn]

end

/-- The second layer goes crosswise, since the first one has exchanged two words. -/
theorem round_eq (s : State) : s.round = layer 17 21 (layer 13 16 s) := rfl

/-- The state before a round. -/
def unround (s : State) : State := layerBack 13 16 (layerBack 17 21 s)

/-- A round can be undone. -/
theorem unround_round (s : State) : s.round.unround = s := by
  rw [round_eq, unround, layerBack_layer (by decide) (by decide),
    layerBack_layer (by decide) (by decide)]

/-- Every state comes of a round. -/
theorem round_unround (s : State) : s.unround.round = s := by
  rw [round_eq, unround, layer_layerBack (by decide) (by decide),
    layer_layerBack (by decide) (by decide)]

/-- A round takes the states to the states, one to one. -/
theorem bijective_round : Function.Bijective round :=
  Function.bijective_iff_has_inverse.2 ⟨unround, unround_round, round_unround⟩

/-! ## Words of a message -/

/-- Absorbing a word is a step that undoes itself, two rounds, and such a step again. -/
theorem bijective_compress (word : UInt64) :
    Function.Bijective fun s : State => s.compress word := by
  have hfirst : Function.Involutive fun s : State => { s with v3 := s.v3 ^^^ word } := fun s => by
    simp only [xor_xor_cancel]
  have hlast : Function.Involutive fun s : State => { s with v0 := s.v0 ^^^ word } := fun s => by
    simp only [xor_xor_cancel]
  exact hlast.bijective.comp
    (bijective_round.comp (bijective_round.comp hfirst.bijective))

/-- Absorbing words one after another is a bijection, by induction on the words. -/
theorem bijective_foldl_compress (words : List UInt64) :
    Function.Bijective fun s : State => words.foldl compress s := by
  induction words with
  | nil => exact Function.bijective_id
  | cons word words ih => exact ih.comp (bijective_compress word)

/-- The first two words of a state show its key. -/
theorem injective_ofKey : Function.Injective ofKey := by
  intro key other h
  have h0 : key.k0 ^^^ 0x736f6d6570736575 = other.k0 ^^^ 0x736f6d6570736575 := congrArg v0 h
  have h1 : key.k1 ^^^ 0x646f72616e646f6d = other.k1 ^^^ 0x646f72616e646f6d := congrArg v1 h
  exact congrArg₂ Key.mk ((UInt64.xor_left_inj _).1 h0) ((UInt64.xor_left_inj _).1 h1)

end State

/-- The state loses nothing. A round is a bijection on states, and so is absorbing a word, whatever
the word is. Under different keys, a message always leads to different states before the last
rounds. -/
theorem absorbing_loses_nothing :
    Function.Bijective State.round ∧
    (∀ word, Function.Bijective fun s : State => s.compress word) ∧
    ∀ message, Function.Injective fun key => absorb key message :=
  ⟨State.bijective_round, State.bijective_compress, fun message =>
    (State.bijective_foldl_compress (words message)).injective.comp State.injective_ofKey⟩

end Containers.SipHash
