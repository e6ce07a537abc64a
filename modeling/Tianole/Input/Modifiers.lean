import Mathlib.Data.List.Induction
import Tianole.Input.Set1

/-! What the modifier bits of the keyboard driver say about the keys that are held. -/
namespace Tianole.Input

/-- The modifiers that two keys share. -/
inductive Modifier where
  | shift | ctrl | alt
  deriving DecidableEq, Repr

namespace Modifier

def mask : Modifier → BitVec 32
  | shift => inputModifierShift
  | ctrl => inputModifierCtrl
  | alt => inputModifierAlt

/-- The left and the right key. -/
def key : Modifier → Bool → Key
  | shift, false => .leftshift
  | shift, true => .rightshift
  | ctrl, false => .leftctrl
  | ctrl, true => .rightctrl
  | alt, false => .leftalt
  | alt, true => .rightalt

end Modifier

/-- Whether a key is down after one more sequence. -/
def track (key : Key) (down : Bool) (scan : Scan) : Bool :=
  match scan.transition with
  | some (other, pressed) => if other = key then pressed else down
  | none => down

/-- The latest make of the key is not yet followed by its break. -/
def held (scans : List Scan) (key : Key) : Bool := scans.foldl (track key) false

/-- The header's reading: a bit is set when either of its keys is down. -/
def Matches (modifiers : BitVec 32) (down : Key → Bool) : Prop :=
  ∀ m : Modifier, modifiers &&& m.mask ≠ 0 ↔ down (m.key false) = true ∨ down (m.key true) = true

instance (modifiers : BitVec 32) (down : Key → Bool) : Decidable (Matches modifiers down) :=
  decidable_of_iff (∀ m ∈ [Modifier.shift, .ctrl, .alt], modifiers &&& m.mask ≠ 0 ↔
    down (m.key false) = true ∨ down (m.key true) = true)
    ⟨fun h m => h m (by cases m <;> decide), fun h m _ => h m⟩

/-- The bits are right after every byte, and in every report. -/
structure ModifiersExact (scans : List Scan) : Prop where
  complete : ∀ before after, scans = before ++ after →
    Matches (ps2KeyboardWork .initial (encode before)).modifiers (held before)
  incomplete : ∀ before scan after, scans = before ++ scan :: after → ∀ part byte rest,
    scan.bytes = part ++ byte :: rest →
    Matches (ps2KeyboardWork .initial (encode before ++ part)).modifiers (held before)
  reports : ∀ before scan after, scans = before ++ scan :: after → ∀ report,
    (ps2KeyboardWork .initial (encode (before ++ [scan]))).reports =
      (ps2KeyboardWork .initial (encode before)).reports ++ [report] →
    Matches report.modifiers (held (before ++ [scan]))

/-- No modifier key goes up while the other key of its pair is down. -/
def ReleasesAlone (scans : List Scan) : Prop :=
  ∀ before scan after, scans = before ++ scan :: after → ∀ m right,
    scan.transition = some (Modifier.key m right, false) → held before (m.key !right) = false

section
variable {d : Decoder} {scan : Scan} {scans : List Scan} {modifiers : BitVec 32}

/-- The number of the modifier's bit. -/
def Modifier.bit : Modifier → ℕ
  | shift => 0
  | ctrl => 1
  | alt => 2

theorem mask_ne_zero_iff (m : Modifier) :
    modifiers &&& m.mask ≠ 0 ↔ modifiers.getLsbD m.bit = true := by
  have hbit (i : ℕ) (hi : i < 32) :
      modifiers &&& (1#32 <<< i) ≠ 0 ↔ modifiers.getLsbD i = true := by
    have hne : BitVec.twoPow 32 i ≠ 0#32 := fun hz => by
      have hset := congrArg (fun bits => bits.getLsbD i) hz
      simp [hi] at hset
    rw [← BitVec.twoPow_eq, BitVec.and_twoPow]
    cases modifiers.getLsbD i <;> simp [hne]
  cases m with
  | shift => exact hbit 0 (by decide)
  | ctrl => exact hbit 1 (by decide)
  | alt => exact hbit 2 (by decide)

theorem update_key (m : Modifier) (right pressed : Bool) :
    ps2UpdateModifier modifiers (m.key right) pressed = holdModifier modifiers m.mask pressed := by
  cases m <;> cases right <;> rfl

theorem key_injective {m m' : Modifier} {right right' : Bool} (h : m.key right = m'.key right') :
    m = m' ∧ right = right' := by
  revert h
  cases m <;> cases right <;> cases m' <;> cases right' <;> decide

theorem hold_bit (m m' : Modifier) (pressed : Bool) :
    (holdModifier modifiers m'.mask pressed).getLsbD m.bit =
      if m' = m then pressed else modifiers.getLsbD m.bit := by
  cases m <;> cases m' <;> cases pressed <;>
    simp [holdModifier, Modifier.mask, Modifier.bit, inputModifierShift, inputModifierCtrl,
      inputModifierAlt]

/-- Every other key leaves the bits alone; the lock keys toggle bits of their own. -/
theorem update_other {key : Key} (hkey : ∀ m right, key ≠ Modifier.key m right) (m : Modifier)
    (pressed : Bool) :
    (ps2UpdateModifier modifiers key pressed).getLsbD m.bit = modifiers.getLsbD m.bit := by
  have hshift : ¬ (key = .leftshift ∨ key = .rightshift) :=
    fun h => h.elim (hkey .shift false) (hkey .shift true)
  have hctrl : ¬ (key = .leftctrl ∨ key = .rightctrl) :=
    fun h => h.elim (hkey .ctrl false) (hkey .ctrl true)
  have halt : ¬ (key = .leftalt ∨ key = .rightalt) :=
    fun h => h.elim (hkey .alt false) (hkey .alt true)
  simp only [ps2UpdateModifier, hshift, hctrl, halt, if_false]
  split_ifs <;> cases m <;>
    simp [Modifier.bit, inputModifierCapslock, inputModifierNumlock, inputModifierScrolllock]

/-- A transition decides the bit of its own modifier and leaves the others alone. -/
theorem update_mask (m : Modifier) (key : Key) (pressed : Bool) :
    ps2UpdateModifier modifiers key pressed &&& m.mask ≠ 0 ↔
      if ∃ right, key = m.key right then pressed = true else modifiers &&& m.mask ≠ 0 := by
  simp only [mask_ne_zero_iff]
  by_cases hkey : ∃ m' right, key = Modifier.key m' right
  · obtain ⟨m', right, rfl⟩ := hkey
    rw [update_key, hold_bit]
    by_cases hm : m' = m
    · rw [if_pos hm, if_pos ⟨right, by rw [hm]⟩]
    · rw [if_neg hm, if_neg fun ⟨right', he⟩ => hm (key_injective he).1]
  · push Not at hkey
    rw [update_other hkey, if_neg fun ⟨right, he⟩ => hkey m right he]

/-! ### One sequence -/

theorem held_append (before : List Scan) (scan : Scan) (key : Key) :
    held (before ++ [scan]) key = track key (held before key) scan := by
  simp [held]

/-- As long as no key of a pair goes up while the other is down, the bits stay right. -/
theorem accept_matches {down : Key → Bool} (h : Matches d.modifiers down)
    (halone : ∀ m right, scan.transition = some (Modifier.key m right, false) →
      down (m.key !right) = false) :
    Matches (d.accept scan).modifiers fun key => track key (down key) scan := by
  unfold Decoder.accept track
  cases ht : scan.transition with
  | none => exact h
  | some step =>
    obtain ⟨key, pressed⟩ := step
    intro m
    simp only [update_mask]
    by_cases hm : ∃ right, key = m.key right
    · obtain ⟨right, rfl⟩ := hm
      have hother : ¬ m.key right = m.key !right := fun he => by
        have := (key_injective he).2
        cases right <;> cases this
      rw [if_pos ⟨right, rfl⟩]
      cases pressed with
      | true => cases right <;> simp
      | false =>
        have hup := halone m right ht
        cases right <;> simp_all
    · rw [if_neg hm]
      have hne (right : Bool) : ¬ key = m.key right := fun he => hm ⟨right, he⟩
      simp only [hne, if_false]
      exact h m

/-- A key that goes up while the other is down clears the bit. -/
theorem accept_not_matches {down : Key → Bool} {m : Modifier} {right : Bool}
    (ht : scan.transition = some (m.key right, false)) (hdown : down (m.key !right) = true) :
    ¬ Matches (d.accept scan).modifiers fun key => track key (down key) scan := by
  intro hmatch
  have hclear := (hmatch m).mpr (by
    have hother : ¬ m.key right = m.key !right := fun he => by
      have := (key_injective he).2
      cases right <;> cases this
    cases right <;> simp_all [track])
  simp only [Decoder.accept, ht] at hclear
  exact absurd ((update_mask m _ _).mp hclear) (by rw [if_pos ⟨right, rfl⟩]; decide)

/-- The bytes before the last one of a sequence change no modifier. -/
theorem decode_part (h : d.Resting) {part rest : List UInt8} {byte : UInt8}
    (hb : scan.bytes = part ++ byte :: rest) :
    (part.foldl decodeScancode d).modifiers = d.modifiers := by
  obtain ⟨modifiers, pending, left, reports⟩ := d
  obtain rfl : pending = false := h.extended
  obtain rfl : left = 0 := h.pause
  have hpart : part = scan.bytes.take part.length := by simp [hb]
  have hlen : part.length < scan.bytes.length := by simp [hb]
  generalize part.length = n at hpart hlen
  subst hpart
  have hprefix (extended : Bool) (last : UInt8) (hn : n < (withPrefix extended last).length) :
      (((withPrefix extended last).take n).foldl decodeScancode
        ⟨modifiers, false, 0, reports⟩).modifiers = modifiers := by
    cases extended with
    | false =>
      obtain rfl : n = 0 := by simpa [withPrefix] using hn
      rfl
    | true =>
      simp only [withPrefix, if_true, List.length_cons, List.length_nil] at hn
      obtain rfl | rfl : n = 0 ∨ n = 1 := by omega
      · rfl
      · rfl
  cases scan with
  | key extended code pressed => exact hprefix _ _ hlen
  | unmapped extended last => exact hprefix _ _ hlen
  | pause =>
    simp only [Scan.bytes, List.length_cons, List.length_nil] at hlen
    obtain rfl | rfl | rfl | rfl | rfl | rfl :
      n = 0 ∨ n = 1 ∨ n = 2 ∨ n = 3 ∨ n = 4 ∨ n = 5 := by omega
    all_goals rfl

theorem valid_before {before after : List Scan} (hv : ∀ scan ∈ scans, scan.Valid)
    (hs : scans = before ++ after) : ∀ scan ∈ before, scan.Valid :=
  fun scan hm => hv scan (by rw [hs]; exact List.mem_append_left _ hm)

/-- Decoding a list of complete sequences, and then one more. -/
theorem work_append {before : List Scan} (hv : ∀ scan ∈ before, scan.Valid) (hscan : scan.Valid) :
    ps2KeyboardWork .initial (encode (before ++ [scan])) =
      (ps2KeyboardWork .initial (encode before)).accept scan := by
  obtain ⟨hdecode, hrest⟩ := decode_encode resting_initial hv
  rw [ps2KeyboardWork, ps2KeyboardWork, encode, List.flatMap_append, List.foldl_append]
  change (List.flatMap Scan.bytes [scan]).foldl _ ((encode before).foldl _ _) = _
  rw [hdecode, List.flatMap_singleton, decode_scan hrest hscan]

theorem complete_of_alone {before after : List Scan} (hv : ∀ scan ∈ before, scan.Valid)
    (h : ReleasesAlone (before ++ after)) :
    Matches (ps2KeyboardWork .initial (encode before)).modifiers (held before) := by
  induction before using List.reverseRecOn generalizing after with
  | nil => exact fun m => by cases m <;> decide
  | append_singleton before scan ih =>
    have hbefore : ∀ scan ∈ before, scan.Valid := fun other hm => hv other (by simp [hm])
    rw [List.append_assoc] at h
    rw [work_append hbefore (hv scan (by simp))]
    have hmatch := accept_matches (ih hbefore h) (h before scan after rfl)
    simpa only [held_append, funext (held_append before scan)] using hmatch

/-- The bits are right throughout exactly when no modifier key goes up while the other key of
its pair is down. -/
theorem modifiers_exact_iff (hv : ∀ scan ∈ scans, scan.Valid) :
    ModifiersExact scans ↔ ReleasesAlone scans := by
  constructor
  · intro h before scan after hs m right ht
    by_contra hdown
    have hbefore := valid_before hv hs
    have hscan : scan.Valid := hv scan (by simp [hs])
    have hmatch := h.complete (before ++ [scan]) after (by simp [hs])
    rw [work_append hbefore hscan, funext (held_append before scan)] at hmatch
    exact accept_not_matches ht (by simpa using hdown) hmatch
  · intro h
    have hcomplete (before after : List Scan) (hs : scans = before ++ after) :=
      complete_of_alone (valid_before hv hs) (hs ▸ h)
    refine ⟨hcomplete, fun before scan after hs part byte rest hb => ?_,
      fun before scan after hs report hr => ?_⟩
    · obtain ⟨hdecode, hrest⟩ := decode_encode resting_initial (valid_before hv hs)
      have hbits := hcomplete before _ hs
      rw [ps2KeyboardWork, hdecode] at hbits
      rw [ps2KeyboardWork, List.foldl_append, hdecode, decode_part hrest hb]
      exact hbits
    · have hscan : scan.Valid := hv scan (by simp [hs])
      have hbits := hcomplete (before ++ [scan]) after (by simp [hs])
      rw [work_append (valid_before hv hs) hscan] at hbits hr
      unfold Decoder.accept at hbits hr
      cases ht : scan.transition with
      | none => simp [ht] at hr
      | some step =>
        simp only [ht, List.append_cancel_left_eq, List.cons.injEq, and_true] at hr hbits
        rw [← hr]
        exact hbits

end

theorem modifiers_exact_iff_single :
    ModifiersExact [.key false 0x2a true, .key false 0x2a false] ↔
      ReleasesAlone [.key false 0x2a true, .key false 0x2a false] :=
  modifiers_exact_iff (by decide)

/-- Both shift keys down, then left shift up: the bit is clear although right shift is down. -/
theorem released_shift_clears_bit :
    held [.key false 0x2a true, .key false 0x36 true, .key false 0x2a false] .rightshift = true ∧
      (ps2KeyboardWork .initial [0x2a, 0x36, 0xaa]).modifiers &&& inputModifierShift = 0 ∧
      ¬ ModifiersExact [.key false 0x2a true, .key false 0x36 true, .key false 0x2a false] := by
  have hheld : held [.key false 0x2a true, .key false 0x36 true, .key false 0x2a false]
      .rightshift = true := by decide
  have hclear : (ps2KeyboardWork .initial [0x2a, 0x36, 0xaa]).modifiers &&& inputModifierShift = 0 := by
    decide
  refine ⟨hheld, hclear, fun h => ?_⟩
  exact (h.complete _ [] (List.append_nil _).symm .shift).mpr (.inr hheld) hclear

end Tianole.Input
