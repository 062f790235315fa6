import DarkReNamer.Rename.Journal.Codec.Frame

/-!
# Journals as sequences of frames

The encoder writes the frames of the records one after another (`streamBytes`), and the
loop of the inspection takes them off again. So a journal is read back as it was
written, a journal of the current version is the only one with its records, and every
prefix of a journal is inspected as the records whose frames it contains.
-/

namespace DarkReNamer

open Bytes

/-- The frames of the records, numbered from `index` on. -/
def streamBytes : ℕ → List JournalRecord → List UInt8
  | _, [] => []
  | index, record :: records => frameBytes index record ++ streamBytes (index + 1) records

theorem streamBytes_append (index : ℕ) (records records' : List JournalRecord) :
    streamBytes index (records ++ records') =
      streamBytes index records ++ streamBytes (index + records.length) records' := by
  induction records generalizing index with
  | nil => rfl
  | cons record records ih =>
      rw [List.cons_append, streamBytes, streamBytes, ih, List.append_assoc, List.length_cons,
        Nat.add_assoc, Nat.add_comm 1]

theorem encodeFrom_eq_ok_iff {records : List JournalRecord} {index : ℕ}
    {bytes result : List UInt8} (hbytes : bytes.length ≤ maxJournalFileBytes) :
    encodeFrom records index bytes = .ok result ↔
      (∀ record ∈ records, record.Storable) ∧ result = bytes ++ streamBytes index records ∧
        result.length ≤ maxJournalFileBytes := by
  induction records generalizing index bytes with
  | nil =>
      constructor
      · rintro ⟨⟩
        simpa [streamBytes] using hbytes
      · rintro ⟨-, rfl, -⟩
        simp [encodeFrom, streamBytes]
  | cons record records ih =>
      simp only [encodeFrom, bind_eq_ok_iff, encodeFrame_eq_ok_iff]
      constructor
      · rintro ⟨frame, ⟨hrecord, rfl⟩, hrest⟩
        split_ifs at hrest with hlarge
        have hmiddle : (bytes ++ frameBytes index record).length ≤ maxJournalFileBytes := by
          rw [List.length_append]
          exact Nat.not_lt.1 hlarge
        obtain ⟨hrecords, rfl, hfits⟩ := (ih hmiddle).1 hrest
        exact ⟨by simpa using ⟨hrecord, hrecords⟩, by simp [streamBytes], hfits⟩
      · rintro ⟨hall, rfl, hfits⟩
        obtain ⟨hrecord, hrecords⟩ := List.forall_mem_cons.1 hall
        have hmiddle : (bytes ++ frameBytes index record).length ≤ maxJournalFileBytes := by
          simp only [streamBytes, List.length_append] at hfits ⊢
          omega
        refine ⟨_, ⟨hrecord, rfl⟩, ?_⟩
        rw [if_neg (Nat.not_lt.2 (List.length_append ▸ hmiddle))]
        exact (ih hmiddle).2 ⟨hrecords, by simp [streamBytes], hfits⟩

/-- The encoder writes the frames of the records when they and the file fit. -/
theorem encodeJournalRecords_eq_ok_iff {records : List JournalRecord} {bytes : List UInt8} :
    encodeJournalRecords records = .ok bytes ↔ records.length ≤ maxJournalFrames ∧
      (∀ record ∈ records, record.Storable) ∧ bytes = streamBytes 0 records ∧
        bytes.length ≤ maxJournalFileBytes := by
  rw [encodeJournalRecords]
  split
  · next hmany =>
      constructor
      · rintro ⟨⟩
      · rintro ⟨hfew, -⟩
        omega
  · next hfew =>
      rw [encodeFrom_eq_ok_iff (Nat.zero_le _), List.nil_append]
      exact ⟨fun h => ⟨Nat.not_lt.1 hfew, h⟩, And.right⟩

/-- Prefixes of the records are encoded as prefixes of the bytes. -/
theorem encodeJournalRecords_take {records : List JournalRecord} {bytes : List UInt8}
    (h : encodeJournalRecords records = .ok bytes) (count : ℕ) :
    encodeJournalRecords (records.take count) = .ok (streamBytes 0 (records.take count)) ∧
      bytes = streamBytes 0 (records.take count) ++
        streamBytes (records.take count).length (records.drop count) := by
  obtain ⟨hfew, hrecords, rfl, hfits⟩ := encodeJournalRecords_eq_ok_iff.1 h
  have hsplit : streamBytes 0 records = streamBytes 0 (records.take count) ++
      streamBytes (records.take count).length (records.drop count) := by
    conv_lhs => rw [← List.take_append_drop count records]
    rw [streamBytes_append, Nat.zero_add]
  refine ⟨encodeJournalRecords_eq_ok_iff.2 ⟨?_, fun record hrecord => ?_, rfl, ?_⟩, hsplit⟩
  · rw [List.length_take]
    omega
  · exact hrecords record (List.mem_of_mem_take hrecord)
  · rw [hsplit, List.length_append] at hfits
    omega

section Inspect

variable {records rs : List JournalRecord} {budget offset : ℕ} {bytes : List UInt8}

theorem inspectFrom_nil : inspectFrom budget records offset [] =
    finishInspection records none offset := by
  cases budget <;> simp [inspectFrom]

theorem finishInspection_eq_ok {issue : Option JournalTailIssue} {validBytes : ℕ}
    (hissue : issue = none ∨ records ≠ []) (hreplay : (replayJournal records).isCorrupt = false) :
    finishInspection records issue validBytes = .ok ⟨records, issue, validBytes⟩ := by
  rw [finishInspection, if_neg, if_neg (by simp [hreplay])]
  rintro ⟨hsome, hempty⟩
  rcases hissue with rfl | hne
  · cases hsome
  · exact hne hempty

theorem lt_two_pow_of_le_maxJournalFrames {frame : ℕ} (h : frame ≤ maxJournalFrames) :
    frame < 2 ^ 64 :=
  lt_of_le_of_lt h (by decide)

/-- The loop takes the frames of the records off the front. -/
theorem inspectFrom_stream (hrs : ∀ record ∈ rs, record.Storable)
    (hfew : records.length + rs.length ≤ maxJournalFrames) (rest : List UInt8) :
    inspectFrom (budget + rs.length) records offset (streamBytes records.length rs ++ rest) =
      inspectFrom budget (records ++ rs) (offset + (streamBytes records.length rs).length)
        rest := by
  induction rs generalizing records offset with
  | nil => simp [streamBytes]
  | cons record rs ih =>
      obtain ⟨hrecord, hrs⟩ := List.forall_mem_cons.1 hrs
      rw [List.length_cons] at hfew
      have hframe : records.length < 2 ^ 64 :=
        lt_two_pow_of_le_maxJournalFrames (by omega)
      have hne : streamBytes records.length (record :: rs) ++ rest ≠ [] := by
        simp [streamBytes, frameBytes_ne_nil]
      have hmore : (records ++ [record]).length + rs.length ≤ maxJournalFrames := by
        simp
        omega
      have hlater : inspectFrom (budget + rs.length) (records ++ [record])
          (offset + (frameBytes records.length record).length)
          (streamBytes (records ++ [record]).length rs ++ rest) = _ := ih hrs hmore
      rw [List.length_append, List.length_singleton] at hlater
      rw [List.length_cons, ← Nat.add_assoc, inspectFrom, if_neg hne, streamBytes,
        List.append_assoc, readFrame_frameBytes hrecord hframe]
      have hconsumed : (frameBytes records.length record ++
          (streamBytes (records.length + 1) rs ++ rest)).length -
            (streamBytes (records.length + 1) rs ++ rest).length =
              (frameBytes records.length record).length := by
        rw [List.length_append]
        omega
      dsimp only
      rw [hconsumed, hlater, List.append_assoc, List.singleton_append, List.length_append,
        Nat.add_assoc]

/-- What the inspection returns once the frames of the records are taken off. -/
theorem inspectJournalRecords_stream (hrs : ∀ record ∈ rs, record.Storable)
    (hfew : rs.length ≤ maxJournalFrames) {rest : List UInt8}
    (hfits : (streamBytes 0 rs ++ rest).length ≤ maxJournalFileBytes) :
    inspectJournalRecords (streamBytes 0 rs ++ rest) =
      inspectFrom (maxJournalFrames - rs.length) rs (streamBytes 0 rs).length rest := by
  have hloop : inspectFrom (maxJournalFrames - rs.length + rs.length) [] 0
      (streamBytes 0 rs ++ rest) = _ := inspectFrom_stream hrs (by simpa using hfew) rest
  rw [Nat.sub_add_cancel hfew, List.length_nil, Nat.zero_add, List.nil_append] at hloop
  rw [inspectJournalRecords, if_neg (Nat.not_lt.2 hfits), hloop]

end Inspect

section RoundTrip

variable {records rs : List JournalRecord} {bytes : List UInt8}

/-- A sequence of frames of the current version. -/
inductive CurrentFrames : List UInt8 → Prop where
  | nil : CurrentFrames []
  | cons (header : FrameHeader) (hversion : readLe header.version = version)
      {payload rest : List UInt8} (hlength : payload.length = readLe header.payloadLength)
      (hrest : CurrentFrames rest) : CurrentFrames (header.bytes ++ (payload ++ rest))

/-- Complete frames of the current version that are accepted are those of their records. -/
theorem CurrentFrames.eq_streamBytes (h : CurrentFrames bytes) {budget offset : ℕ}
    (hbudget : records.length + budget = maxJournalFrames) {inspection : JournalInspection}
    (hok : inspectFrom budget records offset bytes = .ok inspection)
    (hissue : inspection.issue = none) : ∃ rs, inspection.records = records ++ rs ∧
      rs.length ≤ budget ∧ (∀ record ∈ rs, record.Storable) ∧
      bytes = streamBytes records.length rs := by
  induction h generalizing records budget offset with
  | nil =>
      rw [inspectFrom_nil, finishInspection] at hok
      split_ifs at hok
      obtain rfl := Except.ok.inj hok
      exact ⟨[], (List.append_nil _).symm, Nat.zero_le _, by simp, rfl⟩
  | @cons header hversion payload rest hlength _ ih =>
      have hne : header.bytes ++ (payload ++ rest) ≠ [] := by
        intro hnil
        have hlen := congrArg List.length hnil
        rw [List.length_append, FrameHeader.length_bytes, headerBytes] at hlen
        simp at hlen
      cases budget with
      | zero =>
          rw [inspectFrom, if_neg hne] at hok
          cases hok
      | succ budget =>
          rw [inspectFrom, if_neg hne, FrameHeader.readFrame_append] at hok
          cases hread : header.read records.length (payload ++ rest) with
          | error error =>
              rw [hread] at hok
              cases hok
          | ok result =>
              rw [hread] at hok
              cases result with
              | torn issue =>
                  dsimp only at hok
                  rw [finishInspection] at hok
                  split_ifs at hok
                  obtain rfl := Except.ok.inj hok
                  cases hissue
              | complete record rest' =>
                  have hframe : records.length < 2 ^ 64 :=
                    lt_two_pow_of_le_maxJournalFrames (by omega)
                  obtain ⟨hstorable, hheader, hbody⟩ :=
                    FrameHeader.eq_frameHeader hread hversion hframe
                  obtain ⟨-, -, -, -, -, -, -, hrest'⟩ := FrameHeader.read_eq_complete hread
                  rw [← hlength, List.drop_left] at hrest'
                  subst hrest'
                  obtain ⟨rs, hrecords, hfew, hrs, hstream⟩ :=
                    ih (by simp; omega) hok
                  refine ⟨record :: rs, by simpa using hrecords, by simp; omega, ?_, ?_⟩
                  · simpa using ⟨hstorable, hrs⟩
                  · rw [List.length_append, List.length_singleton] at hstream
                    rw [streamBytes, frameBytes, ← hheader, ← hstream, hbody,
                      List.append_assoc]

/-- The codec loses nothing: what is encoded is read back, and a journal of the current
version is the only encoding of its records. -/
theorem journal_codec_round_trip :
    (∀ records bytes, encodeJournalRecords records = .ok bytes →
      (replayJournal records).isCorrupt = false → decodeJournalRecords bytes = .ok records) ∧
    ∀ bytes records, CurrentFrames bytes → decodeJournalRecords bytes = .ok records →
      encodeJournalRecords records = .ok bytes := by
  constructor
  · intro records bytes hencode hreplay
    obtain ⟨hfew, hrecords, rfl, hfits⟩ := encodeJournalRecords_eq_ok_iff.1 hencode
    rw [← List.append_nil (streamBytes 0 records)] at hfits
    have hinspect := inspectJournalRecords_stream hrecords hfew hfits
    rw [List.append_nil, inspectFrom_nil, finishInspection_eq_ok (.inl rfl) hreplay] at hinspect
    rw [decodeJournalRecords, hinspect]
    rfl
  · intro bytes records hcurrent hdecode
    rw [decodeJournalRecords] at hdecode
    cases hinspect : inspectJournalRecords bytes with
    | error error =>
        rw [hinspect] at hdecode
        cases hdecode
    | ok inspection =>
        rw [hinspect] at hdecode
        dsimp only at hdecode
        split_ifs at hdecode with hissue
        obtain rfl := Except.ok.inj hdecode
        rw [inspectJournalRecords] at hinspect
        split_ifs at hinspect with hlarge
        obtain ⟨rs, hrs, hfew, hstorable, hbytes⟩ := hcurrent.eq_streamBytes
          (by simp) hinspect (by simpa using hissue)
        rw [List.nil_append] at hrs
        rw [hrs, encodeJournalRecords_eq_ok_iff]
        exact ⟨hfew, hstorable, hbytes, Nat.not_lt.1 hlarge⟩

/-- What the encoder writes is a sequence of frames of the current version. -/
theorem currentFrames_streamBytes {index : ℕ} (hrs : ∀ record ∈ rs, record.Storable) :
    CurrentFrames (streamBytes index rs) := by
  induction rs generalizing index with
  | nil => exact .nil
  | cons record rs ih =>
      obtain ⟨hrecord, hrs⟩ := List.forall_mem_cons.1 hrs
      have hversion : readLe (frameHeader index record).version = version :=
        readLe_leBytes (by decide)
      have hlength : record.payload.length = readLe (frameHeader index record).payloadLength :=
        (readLe_leBytes (lt_of_le_of_lt hrecord.payload_le (by decide))).symm
      rw [streamBytes, frameBytes, List.append_assoc]
      exact .cons _ hversion hlength (ih hrs)

/-- A record list with a path that is not valid UTF-16. -/
def sampleRecords : List JournalRecord :=
  [.intent ⟨9⟩ [(JournalStep.new ⟨0⟩ ⟨[67, 58, 92, 0xd800]⟩ (.ofAscii "C:\\b") ⟨7, 10⟩ ⟨7, 1⟩
      ⟨7, 2⟩ .none).withMoveAuthorization .file .sameVolumeFilesOnly],
    .prepared 0 .forward, .completed 0 .forward, .terminal .committed]

theorem encode_sampleRecords :
    ∃ bytes, encodeJournalRecords sampleRecords = .ok bytes ∧ bytes.length = 222 := by
  have hlength : (encodeJournalRecords sampleRecords).toOption.map List.length = some 222 := by
    decide +kernel
  cases hencode : encodeJournalRecords sampleRecords with
  | error error =>
      rw [hencode] at hlength
      cases hlength
  | ok bytes =>
      rw [hencode] at hlength
      exact ⟨bytes, rfl, Option.some.inj hlength⟩

theorem replay_sampleRecords : (replayJournal sampleRecords).isCorrupt = false := by
  decide +kernel

/-- Both directions on one journal. -/
theorem journal_codec_round_trip_sample : ∃ bytes,
    decodeJournalRecords bytes = .ok sampleRecords ∧
      encodeJournalRecords sampleRecords = .ok bytes := by
  obtain ⟨bytes, hencode, -⟩ := encode_sampleRecords
  have hdecode := journal_codec_round_trip.1 _ _ hencode replay_sampleRecords
  obtain ⟨-, hrecords, rfl, -⟩ := encodeJournalRecords_eq_ok_iff.1 hencode
  exact ⟨_, hdecode,
    journal_codec_round_trip.2 _ _ (currentFrames_streamBytes hrecords) hdecode⟩

end RoundTrip

section Torn

variable {records rs : List JournalRecord} {bytes : List UInt8}

/-- The longest prefix of the records whose encoding fits in `count` bytes. -/
structure LongestPrefix (records front : List JournalRecord) (frontBytes : List UInt8)
    (count : ℕ) : Prop where
  isPrefix : front <+: records
  encoded : encodeJournalRecords front = .ok frontBytes
  fits : frontBytes.length ≤ count
  longest : ∀ other otherBytes, other <+: records →
    encodeJournalRecords other = .ok otherBytes → otherBytes.length ≤ count →
      other.length ≤ front.length

/-- What is said of the bytes that follow the complete frames. -/
def tailIssue (left : ℕ) : Option JournalTailIssue :=
  if left = 0 then none
  else if left < headerBytes then some .truncatedHeader else some .truncatedPayload

theorem length_streamBytes_mono {index : ℕ} {a b : List JournalRecord}
    (h : a <+: b) : (streamBytes index a).length ≤ (streamBytes index b).length := by
  obtain ⟨c, rfl⟩ := h
  rw [streamBytes_append, List.length_append]
  omega

/-- The first frame of the records, if there is one, is longer than `left`. -/
def CutInside (index left : ℕ) : List JournalRecord → Prop
  | [] => left = 0
  | record :: _ => left < (frameBytes index record).length

/-- The first `count` bytes are the frames of `front` and less than one frame of `back`. -/
structure CutAt (index count : ℕ) (front back : List JournalRecord) : Prop where
  fits : (streamBytes index front).length ≤ count
  inside : CutInside (index + front.length) (count - (streamBytes index front).length) back

theorem exists_cutAt {index count : ℕ} (hcount : count ≤ (streamBytes index rs).length) :
    ∃ front back, rs = front ++ back ∧ CutAt index count front back := by
  induction rs generalizing index count with
  | nil => exact ⟨[], [], rfl, Nat.zero_le _, Nat.le_zero.1 hcount⟩
  | cons record rs ih =>
      by_cases hfirst : count < (frameBytes index record).length
      · exact ⟨[], record :: rs, rfl, Nat.zero_le _, hfirst⟩
      · rw [streamBytes, List.length_append] at hcount
        have hlater : count - (frameBytes index record).length ≤
            (streamBytes (index + 1) rs).length := by
          omega
        obtain ⟨front, back, rfl, hfits, hinside⟩ := ih hlater
        have hlength : (streamBytes index (record :: front)).length =
            (frameBytes index record).length + (streamBytes (index + 1) front).length := by
          rw [streamBytes, List.length_append]
        refine ⟨record :: front, back, rfl, ?_, ?_⟩
        · omega
        · rwa [hlength, List.length_cons, Nat.add_comm front.length 1, ← Nat.add_assoc,
            ← Nat.sub_sub]

/-- Less than one frame is the unfinished end of the journal. -/
theorem inspectFrom_take {left : ℕ} (hrs : ∀ record ∈ rs, record.Storable)
    (hfew : records.length + rs.length ≤ maxJournalFrames)
    (hinside : CutInside records.length left rs) (offset : ℕ) :
    inspectFrom (maxJournalFrames - records.length) records offset
        ((streamBytes records.length rs).take left) =
      finishInspection records (tailIssue left) offset := by
  cases rs with
  | nil =>
      obtain rfl : left = 0 := hinside
      rw [List.take_zero, inspectFrom_nil]
      rfl
  | cons record rs =>
      rw [CutInside] at hinside
      have htake : (streamBytes records.length (record :: rs)).take left =
          (frameBytes records.length record).take left := by
        rw [streamBytes, List.take_append_of_le_length (Nat.le_of_lt hinside)]
      rw [htake]
      cases left with
      | zero =>
          rw [List.take_zero, inspectFrom_nil]
          rfl
      | succ left =>
          rw [List.length_cons] at hfew
          obtain ⟨budget, hbudget⟩ : ∃ budget, maxJournalFrames - records.length = budget + 1 :=
            Nat.exists_eq_succ_of_ne_zero (by omega)
          have hframe : records.length < 2 ^ 64 := lt_two_pow_of_le_maxJournalFrames (by omega)
          have hne : (frameBytes records.length record).take (left + 1) ≠ [] := by
            simp [frameBytes_ne_nil]
          rw [hbudget, inspectFrom, if_neg hne,
            readFrame_take (hrs record (by simp)) hframe hinside]
          dsimp only
          rw [tailIssue, if_neg (Nat.succ_ne_zero left)]
          split <;> rfl

namespace CutAt

variable {count : ℕ} {front back : List JournalRecord}

/-- The inspection finds the complete frames and says what follows them. -/
theorem inspection (hcut : CutAt 0 count front back)
    (hencode : encodeJournalRecords (front ++ back) = .ok bytes) :
    inspectJournalRecords (bytes.take count) =
      finishInspection front (tailIssue (count - (streamBytes 0 front).length))
        (streamBytes 0 front).length := by
  obtain ⟨hfew, hrecords, rfl, hfits⟩ := encodeJournalRecords_eq_ok_iff.1 hencode
  rw [List.length_append] at hfew
  have htake : (streamBytes 0 (front ++ back)).take count = streamBytes 0 front ++
      (streamBytes front.length back).take (count - (streamBytes 0 front).length) := by
    rw [streamBytes_append, List.take_append, List.take_of_length_le hcut.fits, Nat.zero_add]
  have hsmall : (streamBytes 0 front ++ (streamBytes front.length back).take
      (count - (streamBytes 0 front).length)).length ≤ maxJournalFileBytes := by
    rw [← htake, List.length_take]
    omega
  have hinside := hcut.inside
  rw [Nat.zero_add] at hinside
  have hfront := fun record h => hrecords record (List.mem_append_left back h)
  have hback := fun record h => hrecords record (List.mem_append_right front h)
  rw [htake, inspectJournalRecords_stream hfront (by omega) hsmall,
    inspectFrom_take hback hfew hinside]

/-- Longer prefixes contain the frame that is cut. -/
theorem length_le (hcut : CutAt 0 count front back) {other : List JournalRecord}
    (hother : other <+: front ++ back) (hle : (streamBytes 0 other).length ≤ count) :
    other.length ≤ front.length := by
  by_contra hlong
  obtain ⟨hfits, hinside⟩ := hcut
  cases back with
  | nil =>
      have hshort := hother.length_le
      rw [List.append_nil] at hshort
      exact hlong hshort
  | cons record back =>
      have hnext : front ++ [record] <+: other := by
        refine List.prefix_of_prefix_length_le ⟨back, by simp⟩ hother ?_
        rw [List.length_append, List.length_singleton]
        omega
      have hmono : (streamBytes 0 (front ++ [record])).length ≤ (streamBytes 0 other).length :=
        length_streamBytes_mono hnext
      rw [streamBytes_append, List.length_append] at hmono
      simp only [streamBytes, List.append_nil] at hmono
      rw [CutInside] at hinside
      omega

theorem longestPrefix (hcut : CutAt 0 count front back)
    (hencode : encodeJournalRecords (front ++ back) = .ok bytes) :
    LongestPrefix (front ++ back) front (streamBytes 0 front) count := by
  have hfront := (encodeJournalRecords_take hencode front.length).1
  rw [List.take_left] at hfront
  refine ⟨List.prefix_append _ _, hfront, hcut.fits, fun other otherBytes hother hbytes hle => ?_⟩
  obtain ⟨-, -, rfl, -⟩ := encodeJournalRecords_eq_ok_iff.1 hbytes
  exact hcut.length_le hother hle

/-- No frame is complete exactly when the cut is before the end of the first. -/
theorem front_eq_nil_iff (hcut : CutAt 0 count front back) :
    front = [] ↔ count = 0 ∨ count < (streamBytes 0 ((front ++ back).take 1)).length := by
  obtain ⟨hfits, hinside⟩ := hcut
  constructor
  · rintro rfl
    cases back with
    | nil => exact .inl hinside
    | cons record back => exact .inr (by simpa [streamBytes, CutInside] using hinside)
  · intro hcount
    cases front with
    | nil => rfl
    | cons record front =>
        have hpos := List.length_pos_iff.2 (frameBytes_ne_nil 0 record)
        simp only [List.cons_append, List.take_succ_cons, List.take_zero, streamBytes,
          List.length_append, List.length_nil, Nat.add_zero] at hcount hfits
        omega

end CutAt

/-- A journal cut anywhere is inspected as the records whose frames it still contains. -/
theorem inspectJournalRecords_take {records : List JournalRecord} {bytes : List UInt8}
    (hencode : encodeJournalRecords records = .ok bytes)
    (hreplay : (replayJournal records).isCorrupt = false) {count : ℕ}
    (hcount : count ≤ bytes.length) :
    (∀ first, encodeJournalRecords (records.take 1) = .ok first →
      0 < count → count < first.length →
        inspectJournalRecords (bytes.take count) = .error ⟨0, .truncatedFrame⟩) ∧
    ∀ first, encodeJournalRecords (records.take 1) = .ok first →
      count = 0 ∨ first.length ≤ count → ∃ front frontBytes,
        LongestPrefix records front frontBytes count ∧
        inspectJournalRecords (bytes.take count) =
          .ok ⟨front, tailIssue (count - frontBytes.length), frontBytes.length⟩ := by
  obtain ⟨-, -, hbytes, -⟩ := encodeJournalRecords_eq_ok_iff.1 hencode
  rw [hbytes] at hcount
  obtain ⟨front, back, rfl, hcut⟩ := exists_cutAt hcount
  rw [hcut.inspection hencode]
  constructor
  · intro first hfirst hpos hlt
    obtain ⟨-, -, rfl, -⟩ := encodeJournalRecords_eq_ok_iff.1 hfirst
    obtain rfl := hcut.front_eq_nil_iff.2 (.inr hlt)
    have hleft : count - (streamBytes 0 []).length ≠ 0 := Nat.sub_ne_zero_of_lt hpos
    rw [finishInspection, tailIssue, if_neg hleft, if_pos]
    split <;> exact ⟨rfl, rfl⟩
  · intro first hfirst hlarge
    obtain ⟨-, -, rfl, -⟩ := encodeJournalRecords_eq_ok_iff.1 hfirst
    refine ⟨front, _, hcut.longestPrefix hencode, finishInspection_eq_ok ?_
      (isCorrupt_replayJournal_of_append hreplay)⟩
    by_cases hempty : front = []
    · have hzero : count = 0 := (hcut.front_eq_nil_iff.1 hempty).elim id fun hlt =>
        hlarge.elim id fun hle => absurd hle (Nat.not_le.2 hlt)
      exact .inl (by simp [hzero, tailIssue])
    · exact .inr hempty

/-- A cut inside the second frame. -/
theorem inspectJournalRecords_take_sample : ∃ (bytes : List UInt8) (front : List JournalRecord)
    (frontBytes : List UInt8), encodeJournalRecords sampleRecords = .ok bytes ∧
      LongestPrefix sampleRecords front frontBytes 150 ∧
      inspectJournalRecords (bytes.take 150) =
        .ok ⟨front, tailIssue (150 - frontBytes.length), frontBytes.length⟩ := by
  obtain ⟨bytes, hencode, hlength⟩ := encode_sampleRecords
  have hcount : 150 ≤ bytes.length := by
    rw [hlength]
    decide
  have hfirst := (encodeJournalRecords_take hencode 1).1
  have hshort : (streamBytes 0 (sampleRecords.take 1)).length ≤ 150 := by decide +kernel
  obtain ⟨front, frontBytes, hfront, hinspect⟩ :=
    (inspectJournalRecords_take hencode replay_sampleRecords hcount).2 _ hfirst (.inr hshort)
  exact ⟨bytes, front, frontBytes, hencode, hfront, hinspect⟩

end Torn

end DarkReNamer
