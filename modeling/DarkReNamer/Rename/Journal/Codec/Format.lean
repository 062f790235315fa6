import DarkReNamer.Core.Results
import DarkReNamer.Rename.Journal.Codec

/-!
# The bytes of a record

What the encoder writes and the current decoder reads, as functions of the record:
`JournalRecord.payload` and `JournalRecord.kind`. The encoder writes exactly these bytes
for the records that fit the format (`Storable`), and the decoder of version 2 accepts
exactly these bytes, so the two agree although neither mentions the other.
-/

namespace DarkReNamer

open Bytes

def textBytes (text : LegacyText) : List UInt8 :=
  leBytes 4 text.len ++ text.units.flatMap fun unit => leBytes 2 unit.toNat

def identityBytes (identity : EntryIdentity) : List UInt8 :=
  leBytes 8 identity.volume.toNat ++ leBytes 16 identity.fileId.toNat

/-- A step as the current version stores it. -/
def JournalStep.bytes (step : JournalStep) : List UInt8 :=
  leBytes 4 step.entry.value.toNat ++ textBytes step.source ++ textBytes step.destination ++
    identityBytes step.expectedSource ++ identityBytes step.expectedSourceParent ++
    identityBytes step.expectedDestinationParent ++
    [encodeKind (step.kind.getD .file), encodeScope step.scope, encodePhase step.temporaryPhase]

/-- The steps that the current version can store. -/
structure JournalStep.Formed (step : JournalStep) : Prop where
  source : step.source.len ≤ maxPathUnits
  destination : step.destination.len ≤ maxPathUnits
  kind : step.kind.isSome

namespace JournalRecord

def kindByte : JournalRecord → UInt8
  | .intent _ _ => 1
  | .prepared _ _ => 2
  | .completed _ _ => 3
  | .notApplied _ _ => 4
  | .terminal _ => 5

def payload : JournalRecord → List UInt8
  | .intent plan steps =>
      leBytes 8 plan.fingerprint.toNat ++ leBytes 4 steps.length ++ steps.flatMap JournalStep.bytes
  | .prepared step direction => leBytes 4 step ++ [encodeDirection direction]
  | .completed step direction => leBytes 4 step ++ [encodeDirection direction]
  | .notApplied step direction => leBytes 4 step ++ [encodeDirection direction]
  | .terminal value => [encodeTerminal value]

/-- The records whose fields the current version can store. -/
def Formed : JournalRecord → Prop
  | .intent _ steps => steps.length ≤ maxJournalSteps ∧ ∀ step ∈ steps, step.Formed
  | .prepared step _ => step < 2 ^ 32
  | .completed step _ => step < 2 ^ 32
  | .notApplied step _ => step < 2 ^ 32
  | .terminal _ => True

/-- The records that fit a frame. -/
structure Storable (record : JournalRecord) : Prop where
  formed : record.Formed
  payload_le : record.payload.length ≤ maxJournalFrameBytes

theorem kindByte_mem (record : JournalRecord) : ¬ (record.kindByte < 1 ∨ record.kindByte > 5) := by
  cases record <;> simp only [kindByte] <;> decide

end JournalRecord

section Lengths

theorem length_textBytes (text : LegacyText) : (textBytes text).length = 4 + text.len * 2 := by
  simp [textBytes, LegacyText.len, List.length_flatMap]

theorem length_identityBytes (identity : EntryIdentity) : (identityBytes identity).length = 24 := by
  simp [identityBytes]

theorem JournalStep.length_bytes (step : JournalStep) : step.bytes.length =
    intentStepFixedBytes + step.source.len * 2 + step.destination.len * 2 := by
  simp only [bytes, List.length_append, length_textBytes, length_identityBytes, length_leBytes,
    List.length_cons, List.length_nil, intentStepFixedBytes]
  omega

theorem foldl_intentFrameBytes (steps : List JournalStep) (start : ℕ) :
    steps.foldl (fun required step => required + intentStepFixedBytes +
      step.source.units.length * 2 + step.destination.units.length * 2) start =
        start + (steps.flatMap JournalStep.bytes).length := by
  induction steps generalizing start with
  | nil => rfl
  | cons step steps ih =>
      rw [List.foldl_cons, ih, List.flatMap_cons, List.length_append, step.length_bytes,
        LegacyText.len, LegacyText.len]
      omega

/-- The requirement that a manifest is checked against is the length of its payload. -/
theorem intentFrameBytes_eq (plan : PlanId) (steps : List JournalStep) :
    intentFrameBytes steps = (JournalRecord.intent plan steps).payload.length := by
  rw [intentFrameBytes, foldl_intentFrameBytes, JournalRecord.payload, List.length_append,
    List.length_append, length_leBytes, length_leBytes, intentFixedBytes]

end Lengths

section Encode

variable {frame : ℕ} {payload result : List UInt8}

theorem putU32Len_eq_ok_iff {value : ℕ} : putU32Len payload value frame = .ok result ↔
    value < 2 ^ 32 ∧ result = payload ++ leBytes 4 value := by
  rw [putU32Len]
  split
  · next hvalue =>
      rw [Except.ok.injEq, putU32, UInt32.toNat_ofNat_of_lt' hvalue]
      exact ⟨fun h => ⟨hvalue, h.symm⟩, fun h => h.2.symm⟩
  · next hvalue =>
      constructor
      · rintro ⟨⟩
      · rintro ⟨hfits, -⟩
        exact absurd hfits hvalue

theorem putText_eq_ok_iff {text : LegacyText} : putText payload text frame = .ok result ↔
    text.len ≤ maxPathUnits ∧ result = payload ++ textBytes text ∧
      result.length ≤ maxJournalFrameBytes := by
  rw [putText]
  split
  · next hlong =>
      have hnot : ¬ text.len ≤ maxPathUnits := Nat.not_le.2 hlong
      simp [hnot]
  · next hlong =>
      have hlen : text.len ≤ maxPathUnits := Nat.not_lt.1 hlong
      split
      · next hlarge =>
          constructor
          · rintro ⟨⟩
          · rintro ⟨-, rfl, hfits⟩
            rw [List.length_append, length_textBytes] at hfits
            omega
      · next hlarge =>
          rw [map_eq_ok_iff]
          constructor
          · rintro ⟨_, hput, rfl⟩
            obtain ⟨-, rfl⟩ := putU32Len_eq_ok_iff.1 hput
            have hresult : payload ++ leBytes 4 text.len ++
                text.units.flatMap (fun unit => leBytes 2 unit.toNat) =
                  payload ++ textBytes text := by
              rw [textBytes, List.append_assoc]
            refine ⟨hlen, hresult, ?_⟩
            rw [hresult, List.length_append, length_textBytes]
            omega
          · rintro ⟨-, rfl, -⟩
            have hsmall : text.len < 2 ^ 32 := lt_of_le_of_lt hlen (by decide)
            exact ⟨_, putU32Len_eq_ok_iff.2 ⟨hsmall, rfl⟩, by rw [textBytes, List.append_assoc]⟩

theorem guard_eq_ok_iff {ε α : Type} {c : Prop} [Decidable c] {e : ε} {a b : α} :
    (if c then Except.error e else Except.ok a) = .ok b ↔ ¬ c ∧ a = b := by
  by_cases hc : c
  · simp [hc]
  · simp [hc]

theorem encodeStep_eq_ok_iff {step : JournalStep} :
    encodeStep frame payload step = .ok result ↔
      step.Formed ∧ result = payload ++ step.bytes ∧
        result.length ≤ maxJournalFrameBytes := by
  cases hkind : step.kind with
  | none =>
      simp only [encodeStep, hkind, bind_eq_ok_iff]
      constructor
      · rintro ⟨_, -, _, -, ⟨⟩⟩
      · rintro ⟨hformed, -⟩
        simpa [hkind] using hformed.kind
  | some kind =>
      simp only [encodeStep, hkind, bind_eq_ok_iff, putText_eq_ok_iff, guard_eq_ok_iff]
      have hbytes : step.bytes = leBytes 4 step.entry.value.toNat ++ textBytes step.source ++
          textBytes step.destination ++ identityBytes step.expectedSource ++
          identityBytes step.expectedSourceParent ++
          identityBytes step.expectedDestinationParent ++
          [encodeKind kind, encodeScope step.scope, encodePhase step.temporaryPhase] := by
        rw [JournalStep.bytes, hkind]
        rfl
      have hlength := step.length_bytes
      rw [intentStepFixedBytes] at hlength
      constructor
      · rintro ⟨_, ⟨hsource, rfl, -⟩, _, ⟨hdestination, rfl, -⟩, hfits, rfl⟩
        refine ⟨⟨hsource, hdestination, by simp [hkind]⟩, ?_, Nat.not_lt.1 hfits⟩
        simp [hbytes, putU32, putIdentity, identityBytes]
      · rintro ⟨⟨hsource, hdestination, -⟩, rfl, hfits⟩
        rw [List.length_append] at hfits
        refine ⟨_, ⟨hsource, rfl, ?_⟩, _, ⟨hdestination, rfl, ?_⟩, ?_, ?_⟩
        · simp only [putU32, List.length_append, length_textBytes, length_leBytes]
          omega
        · simp only [putU32, List.length_append, length_textBytes, length_leBytes]
          omega
        · simp only [putU32, putIdentity, List.length_append, length_textBytes, length_leBytes,
            List.length_cons, List.length_nil]
          omega
        · simp [hbytes, putU32, putIdentity, identityBytes]

theorem encodeSteps_eq_ok_iff {steps : List JournalStep}
    (hpayload : payload.length ≤ maxJournalFrameBytes) :
    steps.foldlM (encodeStep frame) payload = .ok result ↔
      (∀ step ∈ steps, step.Formed) ∧ result = payload ++ steps.flatMap JournalStep.bytes ∧
        result.length ≤ maxJournalFrameBytes := by
  induction steps generalizing payload with
  | nil =>
      rw [List.foldlM_nil]
      constructor
      · rintro ⟨⟩
        simpa using hpayload
      · rintro ⟨-, rfl, -⟩
        simp [pure, Except.pure]
  | cons step steps ih =>
      simp only [List.foldlM_cons, bind_eq_ok_iff, encodeStep_eq_ok_iff]
      constructor
      · rintro ⟨middle, ⟨hstep, rfl, hmiddle⟩, hrest⟩
        obtain ⟨hsteps, rfl, hfits⟩ := (ih hmiddle).1 hrest
        exact ⟨by simpa using ⟨hstep, hsteps⟩, by simp, hfits⟩
      · rintro ⟨hsteps, rfl, hfits⟩
        obtain ⟨hstep, hsteps⟩ := List.forall_mem_cons.1 hsteps
        have hmiddle : (payload ++ step.bytes).length ≤ maxJournalFrameBytes := by
          simp only [List.flatMap_cons, List.length_append] at hfits ⊢
          omega
        exact ⟨_, ⟨hstep, rfl, hmiddle⟩, (ih hmiddle).2 ⟨hsteps, by simp, hfits⟩⟩

theorem encodeMove_eq_ok_iff {kind : UInt8} {step : ℕ} {direction : JournalDirection}
    {r : UInt8 × List UInt8} : encodeMove kind step direction frame = .ok r ↔
      step < 2 ^ 32 ∧ r = (kind, leBytes 4 step ++ [encodeDirection direction]) := by
  simp only [encodeMove, map_eq_ok_iff, putU32Len_eq_ok_iff, List.nil_append]
  constructor
  · rintro ⟨_, ⟨hstep, rfl⟩, rfl⟩
    exact ⟨hstep, rfl⟩
  · rintro ⟨hstep, rfl⟩
    exact ⟨_, ⟨hstep, rfl⟩, rfl⟩

theorem journalRequirements_isOk_iff (frame : ℕ) (plan : PlanId) (steps : List JournalStep) :
    (∃ a, (journalRequirements steps).mapError (capacityCodecError frame) = .ok a) ↔
      steps.length ≤ maxJournalSteps ∧
        (JournalRecord.intent plan steps).payload.length ≤ maxJournalFrameBytes := by
  rw [← intentFrameBytes_eq, journalRequirements]
  split
  · next hlong =>
      simp [Except.mapError, Nat.not_le.2 hlong]
  · next hlong =>
      split
      · next hlarge => simp [Except.mapError, Nat.not_le.2 hlarge]
      · next hlarge =>
          simp [Except.mapError, Nat.not_lt.1 hlong, Nat.not_lt.1 hlarge]

/-- The encoder writes the payload of the records that fit a frame. -/
theorem encodeRecord_eq_ok_iff {record : JournalRecord} {r : UInt8 × List UInt8} :
    encodeRecord record frame = .ok r ∧ r.2.length ≤ maxJournalFrameBytes ↔
      record.Storable ∧ r = (record.kindByte, record.payload) := by
  have hmove : ∀ (kind : UInt8) (step : ℕ) (direction : JournalDirection),
      encodeMove kind step direction frame = .ok r ∧ r.2.length ≤ maxJournalFrameBytes ↔
        step < 2 ^ 32 ∧ r = (kind, leBytes 4 step ++ [encodeDirection direction]) := by
    intro kind step direction
    rw [encodeMove_eq_ok_iff]
    refine ⟨And.left, fun h => ⟨h, ?_⟩⟩
    obtain ⟨-, rfl⟩ := h
    rw [List.length_append, length_leBytes]
    exact (show 4 + 1 ≤ maxJournalFrameBytes by decide)
  have hstorable : ∀ {record : JournalRecord}, record.payload.length ≤ 5 →
      (record.Storable ↔ record.Formed) := by
    intro record hshort
    have hfive : 5 ≤ maxJournalFrameBytes := by decide
    exact ⟨fun h => h.formed, fun h => ⟨h, hshort.trans hfive⟩⟩
  cases record with
  | intent plan steps =>
      simp only [encodeRecord, bind_eq_ok_iff, putU32Len_eq_ok_iff]
      constructor
      · rintro ⟨⟨_, hrequirements, _, ⟨-, rfl⟩, _, hsteps, ⟨⟩⟩, hfits⟩
        obtain ⟨hlength, -⟩ := (journalRequirements_isOk_iff _ plan _).1 ⟨_, hrequirements⟩
        obtain ⟨hformed, rfl, -⟩ := (encodeSteps_eq_ok_iff (by
          simp only [putU64, List.nil_append, List.length_append, length_leBytes]
          decide)).1 hsteps
        exact ⟨⟨⟨hlength, hformed⟩, hfits⟩, rfl⟩
      · rintro ⟨⟨⟨hlength, hformed⟩, hfits⟩, rfl⟩
        obtain ⟨requirements, hrequirements⟩ :=
          (journalRequirements_isOk_iff frame plan _).2 ⟨hlength, hfits⟩
        have hcount : steps.length < 2 ^ 32 := lt_of_le_of_lt hlength (by decide)
        refine ⟨⟨requirements, hrequirements, _, ⟨hcount, rfl⟩, _,
          (encodeSteps_eq_ok_iff ?_).2 ⟨hformed, rfl, hfits⟩, rfl⟩, hfits⟩
        simp only [putU64, List.nil_append, List.length_append, length_leBytes]
        decide
  | prepared step direction =>
      rw [hstorable (by simp [JournalRecord.payload])]
      exact hmove 2 step direction
  | completed step direction =>
      rw [hstorable (by simp [JournalRecord.payload])]
      exact hmove 3 step direction
  | notApplied step direction =>
      rw [hstorable (by simp [JournalRecord.payload])]
      exact hmove 4 step direction
  | terminal value =>
      rw [hstorable (by simp [JournalRecord.payload])]
      constructor
      · rintro ⟨⟨⟩, -⟩
        exact ⟨trivial, rfl⟩
      · rintro ⟨-, rfl⟩
        exact ⟨rfl, show 1 ≤ maxJournalFrameBytes by decide⟩

end Encode

section Decode

variable {frame : ℕ}

theorem parses_u8 : Parses (Decoder.u8 frame) fun value front => front = [value] := by
  refine ((parses_takeExactly 1 _).bind fun bytes _ _ =>
    Parses.pure (bytes.headD 0)).congr fun value front => ?_
  constructor
  · rintro ⟨bytes, _, _, ⟨hlength, rfl⟩, ⟨rfl, rfl⟩, rfl⟩
    obtain ⟨byte, rfl⟩ := List.length_eq_one_iff.1 hlength
    rfl
  · rintro rfl
    exact ⟨[value], [value], [], ⟨rfl, rfl⟩, ⟨rfl, rfl⟩, rfl⟩

theorem parses_u32 : Parses (Decoder.u32 frame) fun value front =>
    front = leBytes 4 value.toNat := by
  refine ((parses_takeExactly 4 _).bind fun bytes _ _ =>
    Parses.ofExcept (readFixedU32 bytes frame)).congr fun value front => ?_
  constructor
  · rintro ⟨_, bytes, _, ⟨hlength, rfl⟩, ⟨hread, rfl⟩, rfl⟩
    rw [readFixedU32, if_pos hlength, Except.ok.injEq] at hread
    have hbytes := readLe_lt bytes
    rw [hlength] at hbytes
    rw [← hread, UInt32.toNat_ofNat_of_lt' hbytes, List.append_nil]
    exact (eq_leBytes_iff hbytes hlength).2 rfl
  · rintro rfl
    have hvalue : value.toNat < 256 ^ 4 := value.toNat_lt
    refine ⟨_, _, [], ⟨length_leBytes _ _, rfl⟩, ⟨?_, rfl⟩, (List.append_nil _).symm⟩
    rw [readFixedU32, if_pos (length_leBytes _ _), readLe_leBytes hvalue, UInt32.ofNat_toNat]

theorem parses_usizeU32 : Parses (Decoder.usizeU32 frame) fun value front =>
    value < 2 ^ 32 ∧ front = leBytes 4 value := by
  refine (parses_u32.map UInt32.toNat).congr fun value front => ?_
  constructor
  · rintro ⟨word, rfl, rfl⟩
    exact ⟨word.toNat_lt, rfl⟩
  · rintro ⟨hvalue, rfl⟩
    have hword := UInt32.toNat_ofNat_of_lt' hvalue
    exact ⟨UInt32.ofNat value, by rw [hword], hword.symm⟩

theorem parses_u64 : Parses (Decoder.u64 frame) fun value front =>
    front = leBytes 8 value.toNat := by
  refine ((parses_takeExactly 8 _).bind fun bytes _ _ =>
    Parses.ofExcept (readFixedU64 bytes frame)).congr fun value front => ?_
  constructor
  · rintro ⟨_, bytes, _, ⟨hlength, rfl⟩, ⟨hread, rfl⟩, rfl⟩
    rw [readFixedU64, if_pos hlength, Except.ok.injEq] at hread
    have hbytes := readLe_lt bytes
    rw [hlength] at hbytes
    rw [← hread, UInt64.toNat_ofNat_of_lt' hbytes, List.append_nil]
    exact (eq_leBytes_iff hbytes hlength).2 rfl
  · rintro rfl
    have hvalue : value.toNat < 256 ^ 8 := value.toNat_lt
    refine ⟨_, _, [], ⟨length_leBytes _ _, rfl⟩, ⟨?_, rfl⟩, (List.append_nil _).symm⟩
    rw [readFixedU64, if_pos (length_leBytes _ _), readLe_leBytes hvalue, UInt64.ofNat_toNat]

theorem parses_u128 : Parses (Decoder.u128 frame) fun value front =>
    front = leBytes 16 value.toNat := by
  refine ((parses_takeExactly 16 _).bind fun bytes _ _ =>
    Parses.pure (BitVec.ofNat 128 (readLe bytes))).congr fun value front => ?_
  constructor
  · rintro ⟨_, bytes, _, ⟨hlength, rfl⟩, ⟨rfl, rfl⟩, rfl⟩
    have hbytes := readLe_lt bytes
    rw [hlength] at hbytes
    rw [BitVec.toNat_ofNat, show (2 : ℕ) ^ 128 = 256 ^ 16 by decide,
      Nat.mod_eq_of_lt hbytes, List.append_nil]
    exact (eq_leBytes_iff hbytes hlength).2 rfl
  · rintro rfl
    have hvalue : value.toNat < 256 ^ 16 := value.isLt
    refine ⟨_, _, [], ⟨length_leBytes _ _, rfl⟩, ⟨?_, rfl⟩, (List.append_nil _).symm⟩
    rw [readLe_leBytes hvalue, BitVec.ofNat_toNat, BitVec.setWidth_eq]

theorem parses_identity : Parses (Decoder.identity frame) fun value front =>
    front = identityBytes value := by
  refine (parses_u64.bind fun volume _ _ => parses_u128.bind fun fileId _ _ =>
    Parses.pure (EntryIdentity.mk volume fileId)).congr fun value front => ?_
  constructor
  · rintro ⟨volume, _, _, rfl, ⟨fileId, _, _, rfl, ⟨rfl, rfl⟩, rfl⟩, rfl⟩
    simp [identityBytes]
  · rintro rfl
    exact ⟨_, _, _, rfl, ⟨_, _, _, rfl, ⟨rfl, rfl⟩, rfl⟩, by simp [identityBytes]⟩

theorem units_flatMap (units : List UInt16) :
    Decoder.units (units.flatMap fun unit => leBytes 2 unit.toNat) = units := by
  induction units with
  | nil => rfl
  | cons unit units ih =>
      have hunit : unit.toNat < 256 ^ 2 := unit.toNat_lt
      have hread := readLe_leBytes hunit
      rw [List.flatMap_cons]
      rw [leBytes, leBytes, leBytes] at hread ⊢
      rw [List.cons_append, List.cons_append, List.nil_append, Decoder.units, hread, ih,
        UInt16.ofNat_toNat]

theorem flatMap_units {count : ℕ} {bytes : List UInt8} (h : bytes.length = count * 2) :
    (Decoder.units bytes).length = count ∧
      (Decoder.units bytes).flatMap (fun unit => leBytes 2 unit.toNat) = bytes := by
  induction count generalizing bytes with
  | zero =>
      obtain rfl := List.length_eq_zero_iff.1 (h.trans (Nat.zero_mul 2))
      exact ⟨rfl, rfl⟩
  | succ count ih =>
      match bytes, h with
      | [], h => simp at h
      | [_], h =>
          simp only [List.length_singleton] at h
          omega
      | low :: high :: bytes, h =>
          have hpair : readLe [low, high] < 256 ^ 2 := readLe_lt [low, high]
          have hrest : bytes.length = count * 2 := by
            simp only [List.length_cons] at h
            omega
          obtain ⟨hlength, hbytes⟩ := ih hrest
          refine ⟨by rw [Decoder.units, List.length_cons, hlength], ?_⟩
          rw [Decoder.units, List.flatMap_cons, hbytes, UInt16.toNat_ofNat_of_lt' hpair,
            show (2 : ℕ) = [low, high].length from rfl, leBytes_readLe]
          rfl

theorem parses_text : Parses (Decoder.text frame) fun value front =>
    value.len ≤ maxPathUnits ∧ front = textBytes value := by
  refine (parses_usizeU32.bind fun count _ _ => Parses.guard fun _ =>
    (parses_takeExactly (count * 2) _).bind fun bytes _ _ =>
      Parses.pure (LegacyText.mk (Decoder.units bytes))).congr fun value front => ?_
  constructor
  · rintro ⟨count, _, _, ⟨-, rfl⟩, ⟨hcount, bytes, _, _, ⟨hlength, rfl⟩, ⟨rfl, rfl⟩, rfl⟩, rfl⟩
    obtain ⟨hunits, hbytes⟩ := flatMap_units hlength
    rw [LegacyText.len, textBytes, LegacyText.len, hunits, hbytes, List.append_nil]
    exact ⟨Nat.not_lt.1 hcount, rfl⟩
  · rintro ⟨hlen, rfl⟩
    have hsmall : value.len < 2 ^ 32 := lt_of_le_of_lt hlen (by decide)
    have hlength : (value.units.flatMap fun unit => leBytes 2 unit.toNat).length =
        value.len * 2 := by
      simp [List.length_flatMap, LegacyText.len]
    refine ⟨_, _, _, ⟨hsmall, rfl⟩, ⟨Nat.not_lt.2 hlen, _, _, [], ⟨hlength, rfl⟩,
      ⟨?_, rfl⟩, (List.append_nil _).symm⟩, rfl⟩
    rw [units_flatMap]

/-- A table that lists every value of an encoder decodes it. -/
theorem decodeField_eq_ok_iff {α : Type} {encode : α → UInt8} {table : List (UInt8 × α)}
    (hsound : ∀ entry ∈ table, entry.1 = encode entry.2)
    (hcomplete : ∀ field, table.lookup (encode field) = some field) (value : UInt8)
    (field : α) : decodeField table value frame = .ok field ↔ value = encode field := by
  rw [decodeField]
  constructor
  · intro h
    split at h
    · next found hfound =>
        obtain rfl := Except.ok.inj h
        obtain ⟨before, after, rfl, -⟩ := List.lookup_eq_some_iff.1 hfound
        exact hsound (value, found) (by simp)
    · cases h
  · rintro rfl
    rw [hcomplete]

/-- A field of one byte that is decoded by the table of its encoder. -/
theorem parses_field {α : Type} {decode : UInt8 → ℕ → Except JournalCodecError α}
    {encode : α → UInt8} (h : ∀ value field, decode value frame = .ok field ↔
      value = encode field) :
    Parses (Decoder.field decode frame) fun field front => front = [encode field] := by
  refine (parses_u8.bind fun value _ _ =>
    Parses.ofExcept (decode value frame)).congr fun field front => ?_
  constructor
  · rintro ⟨value, _, _, rfl, ⟨hdecode, rfl⟩, rfl⟩
    rw [(h value field).1 hdecode]
    rfl
  · rintro rfl
    exact ⟨_, _, [], rfl, ⟨(h _ _).2 rfl, rfl⟩, rfl⟩

theorem decodeDirection_eq_ok_iff (value : UInt8) (direction : JournalDirection) :
    decodeDirection value frame = .ok direction ↔ value = encodeDirection direction :=
  decodeField_eq_ok_iff (by decide) (by rintro (_ | _) <;> rfl) value direction

theorem decodeKind_eq_ok_iff (value : UInt8) (kind : EntryKind) :
    decodeKind value frame = .ok kind ↔ value = encodeKind kind :=
  decodeField_eq_ok_iff (by decide) (by rintro (_ | _) <;> rfl) value kind

theorem decodeScope_eq_ok_iff (value : UInt8) (scope : MoveScope) :
    decodeScope value frame = .ok scope ↔ value = encodeScope scope :=
  decodeField_eq_ok_iff (by decide) (by rintro (_ | _) <;> rfl) value scope

theorem decodePhase_eq_ok_iff (value : UInt8) (phase : TemporaryPhase) :
    decodePhase value frame = .ok phase ↔ value = encodePhase phase :=
  decodeField_eq_ok_iff (by decide) (by rintro (_ | _ | _) <;> rfl) value phase

theorem decodeTerminal_eq_ok_iff (value : UInt8) (terminal : JournalTerminal) :
    decodeTerminal value frame = .ok terminal ↔ value = encodeTerminal terminal :=
  decodeField_eq_ok_iff (by decide) (by rintro (_ | _) <;> rfl) value terminal

/-- A step of the current version is read from exactly its bytes. -/
theorem parses_decodeStep : Parses (decodeStep frame version) fun step front =>
    step.Formed ∧ front = step.bytes := by
  refine (parses_u32.bind fun entry _ _ => parses_text.bind fun source _ _ =>
    parses_text.bind fun destination _ _ => parses_identity.bind fun expectedSource _ _ =>
    parses_identity.bind fun expectedSourceParent _ _ =>
    parses_identity.bind fun expectedDestinationParent _ _ =>
    (parses_field decodeKind_eq_ok_iff).bind fun kind _ _ =>
    (parses_field decodeScope_eq_ok_iff).bind fun scope _ _ =>
    (parses_field decodePhase_eq_ok_iff).bind fun phase _ _ =>
    Parses.pure ((JournalStep.new ⟨entry⟩ source destination expectedSource
      expectedSourceParent expectedDestinationParent phase).withMoveAuthorization kind
        scope)).congr fun step front => ?_
  constructor
  · rintro ⟨entry, _, _, rfl, ⟨source, _, _, ⟨hsource, rfl⟩, ⟨destination, _, _,
      ⟨hdestination, rfl⟩, ⟨expectedSource, _, _, rfl, ⟨expectedSourceParent, _, _, rfl,
      ⟨expectedDestinationParent, _, _, rfl, ⟨kind, _, _, rfl, ⟨scope, _, _, rfl,
      ⟨phase, _, _, rfl, ⟨rfl, rfl⟩, rfl⟩, rfl⟩, rfl⟩, rfl⟩, rfl⟩, rfl⟩, rfl⟩, rfl⟩, rfl⟩
    refine ⟨⟨hsource, hdestination, rfl⟩, ?_⟩
    simp [JournalStep.bytes, JournalStep.new, JournalStep.withMoveAuthorization]
  · rintro ⟨⟨hsource, hdestination, hkind⟩, rfl⟩
    obtain ⟨kind, hkind⟩ := Option.isSome_iff_exists.1 hkind
    refine ⟨step.entry.value, _, _, rfl, ⟨step.source, _, _, ⟨hsource, rfl⟩,
      ⟨step.destination, _, _, ⟨hdestination, rfl⟩, ⟨step.expectedSource, _, _, rfl,
      ⟨step.expectedSourceParent, _, _, rfl, ⟨step.expectedDestinationParent, _, _, rfl,
      ⟨kind, _, _, rfl, ⟨step.scope, _, _, rfl, ⟨step.temporaryPhase, _, _, rfl,
      ⟨?_, rfl⟩, rfl⟩, rfl⟩, rfl⟩, rfl⟩, rfl⟩, rfl⟩, rfl⟩, rfl⟩, ?_⟩
    · cases step
      simp only at hkind
      subst hkind
      rfl
    · simp [JournalStep.bytes, hkind]

theorem parses_decodeMove (record : ℕ → JournalDirection → JournalRecord) :
    Parses (decodeMove record frame) fun r front => ∃ step direction, r = record step direction ∧
      step < 2 ^ 32 ∧ front = leBytes 4 step ++ [encodeDirection direction] := by
  refine (parses_usizeU32.bind fun step _ _ =>
    (parses_field decodeDirection_eq_ok_iff).bind fun direction _ _ =>
    Parses.pure (record step direction)).congr fun r front => ?_
  constructor
  · rintro ⟨step, _, _, ⟨hstep, rfl⟩, ⟨direction, _, _, rfl, ⟨rfl, rfl⟩, rfl⟩, rfl⟩
    exact ⟨step, direction, rfl, hstep, rfl⟩
  · rintro ⟨step, direction, rfl, hstep, rfl⟩
    exact ⟨step, _, _, ⟨hstep, rfl⟩, ⟨direction, _, _, rfl, ⟨rfl, rfl⟩, rfl⟩, rfl⟩

theorem parses_decodeIntent : Parses (do
    let plan ← Decoder.u64 frame
    let count ← Decoder.usizeU32 frame
    if count > maxJournalSteps then throw ⟨frame, .tooManySteps⟩
    else do
      let steps ← times (decodeStep frame version) count
      pure (JournalRecord.intent ⟨plan⟩ steps)) fun r front => ∃ plan steps,
        r = .intent plan steps ∧ r.Formed ∧ front = r.payload := by
  refine (parses_u64.bind fun plan _ _ => parses_usizeU32.bind fun count _ _ =>
    Parses.guard fun _ => (parses_times parses_decodeStep count).bind fun steps _ _ =>
    Parses.pure (JournalRecord.intent ⟨plan⟩ steps)).congr fun r front => ?_
  constructor
  · rintro ⟨plan, _, _, rfl, ⟨count, _, _, ⟨-, rfl⟩, ⟨hcount, steps, _, _,
      ⟨rfl, hsteps, rfl⟩, ⟨rfl, rfl⟩, rfl⟩, rfl⟩, rfl⟩
    exact ⟨⟨plan⟩, steps, rfl, ⟨Nat.not_lt.1 hcount, hsteps⟩,
      by simp [JournalRecord.payload]⟩
  · rintro ⟨plan, steps, rfl, ⟨hcount, hsteps⟩, rfl⟩
    have hsmall : steps.length < 2 ^ 32 := lt_of_le_of_lt hcount (by decide)
    exact ⟨plan.fingerprint, _, _, rfl, ⟨steps.length, _, _, ⟨hsmall, rfl⟩,
      ⟨Nat.not_lt.2 hcount, steps, _, _, ⟨rfl, hsteps, rfl⟩, ⟨rfl, rfl⟩, rfl⟩, rfl⟩,
      by simp [JournalRecord.payload]⟩

/-- A record of the current version is read from exactly its payload. -/
theorem parses_decodeFields (kind : UInt8) : Parses (decodeFields kind frame version)
    fun record front => kind = record.kindByte ∧ record.Formed ∧ front = record.payload := by
  unfold decodeFields
  split
  · next h =>
      subst h
      refine parses_decodeIntent.congr fun record front => ?_
      cases record <;> simp [JournalRecord.kindByte]
  · next h1 =>
      split
      · next h =>
          subst h
          refine (parses_decodeMove _).congr fun record front => ?_
          cases record <;> simp [JournalRecord.kindByte, JournalRecord.Formed,
            JournalRecord.payload]
      · next h2 =>
          split
          · next h =>
              subst h
              refine (parses_decodeMove _).congr fun record front => ?_
              cases record <;> simp [JournalRecord.kindByte, JournalRecord.Formed,
                JournalRecord.payload]
          · next h3 =>
              split
              · next h =>
                  subst h
                  refine (parses_decodeMove _).congr fun record front => ?_
                  cases record <;> simp [JournalRecord.kindByte, JournalRecord.Formed,
                    JournalRecord.payload]
              · next h4 =>
                  split
                  · next h =>
                      subst h
                      refine ((parses_field decodeTerminal_eq_ok_iff).bind fun value _ _ =>
                        Parses.pure (JournalRecord.terminal value)).congr fun record front => ?_
                      cases record <;> simp [JournalRecord.kindByte, JournalRecord.Formed,
                        JournalRecord.payload]
                  · next h5 =>
                      refine (Parses.throw _).congr fun record front => ?_
                      cases record <;> simp_all [JournalRecord.kindByte]

/-- The decoder of the current version accepts exactly the payloads of the records. -/
theorem decodeRecord_eq_ok_iff {kind : UInt8} {payload : List UInt8} {record : JournalRecord} :
    decodeRecord kind payload frame version = .ok record ↔
      kind = record.kindByte ∧ record.Formed ∧ payload = record.payload := by
  have hparse := (parses_decodeFields kind : Parses (decodeFields kind frame version) _) payload
  have hwhole : (decodeFields kind frame version).run payload = .ok (record, []) ↔
      kind = record.kindByte ∧ record.Formed ∧ payload = record.payload := by
    rw [hparse record []]
    constructor
    · rintro ⟨_, ⟨hkind, hformed, rfl⟩, rfl⟩
      exact ⟨hkind, hformed, List.append_nil _⟩
    · rintro ⟨hkind, hformed, rfl⟩
      exact ⟨_, ⟨hkind, hformed, rfl⟩, (List.append_nil _).symm⟩
  rw [← hwhole, decodeRecord]
  constructor
  · intro h
    split at h
    · cases h
    · next found rest hrun =>
        split at h
        · next hrest =>
            obtain rfl := Except.ok.inj h
            rw [hrun, hrest]
        · cases h
  · intro h
    rw [h]
    rfl

end Decode

end DarkReNamer
