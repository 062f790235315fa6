import DarkReNamer.Core.Results
import DarkReNamer.Preferences.Record

/-!
# The settings records, exactly

Each of the three decoders accepts the records that its encoder writes and nothing else, and
gives back the settings that were encoded. Every step of the checksum can be undone, so a record
with one byte changed is no record of anything.
-/

namespace DarkReNamer

open Bytes UiLayout

namespace Preferences

/-! ### The checksum -/

def checksumStep (hash : UInt32) (byte : UInt8) : UInt32 := (hash ^^^ byte.toUInt32) * 16777619

/-- The multiplier is odd, and this is its inverse. -/
theorem mul_prime_cancel (a : UInt32) : a * 16777619 * 899433627 = a := by
  rw [UInt32.mul_assoc, show (16777619 : UInt32) * 899433627 = 1 by decide, UInt32.mul_one]

theorem mul_prime_injective : Function.Injective fun a : UInt32 => a * 16777619 := by
  intro a b h
  rw [← mul_prime_cancel a, ← mul_prime_cancel b]
  exact congrArg (· * 899433627) h

theorem checksumStep_injective (byte : UInt8) :
    Function.Injective fun hash => checksumStep hash byte := by
  intro a b h
  exact (UInt32.xor_left_inj _).1 (mul_prime_injective h)

theorem checksumStep_injective_byte (hash : UInt32) : Function.Injective (checksumStep hash) := by
  intro a b h
  exact UInt8.toUInt32_inj.1 ((UInt32.xor_right_inj _).1 (mul_prime_injective h))

theorem noticesOneByte_checksum : NoticesOneByte checksum := fun _ _ _ _ hxy =>
  foldl_ne_of_changed checksumStep_injective checksumStep_injective_byte hxy _

/-! ### Fields of one byte -/

/-- A table without a wrong line decodes the bytes of its values, and only these. -/
theorem decodeByte_iff {α : Type} {table : List (UInt8 × α)} {message : String} {encode : α → UInt8}
    (hvalues : ∀ field, table.lookup (encode field) = some field)
    (htable : ∀ line ∈ table, line.1 = encode line.2) {value : UInt8} {field : α} :
    decodeByte table message value = .ok field ↔ value = encode field := by
  rw [decodeByte]
  constructor
  · intro h
    split at h
    · next found hfound =>
      obtain rfl := Except.ok.inj h
      obtain ⟨front, back, rfl, -⟩ := List.lookup_eq_some_iff.1 hfound
      exact htable (value, found) (by simp)
    · cases h
  · rintro rfl
    rw [hvalues field]

theorem decodeFlag_iff {value : UInt8} {flag : Bool} :
    decodeFlag value = .ok flag ↔ value = encodeFlag flag :=
  decodeByte_iff (by decide) (by simp [encodeFlag])

theorem decodeTheme_iff {value : UInt8} {theme : AppThemeMode} :
    decodeTheme value = .ok theme ↔ value = encodeTheme theme :=
  decodeByte_iff (by rintro (_ | _ | _) <;> rfl) (by decide)

theorem decodeDensity_iff {value : UInt8} {density : RailDensityPreference} :
    decodeDensity value = .ok density ↔ value = encodeDensity density :=
  decodeByte_iff (by rintro (_ | _ | _ | _) <;> rfl) (by decide)

theorem decodeEmphasis_iff {value : UInt8} {emphasis : PreviewEmphasis} :
    decodeEmphasis value = .ok emphasis ↔ value = encodeEmphasis emphasis :=
  decodeByte_iff (by rintro (_ | _ | _) <;> rfl) (by decide)

theorem decodePreference_iff {value : UInt8} {preference : LanguagePreference} :
    decodePreference value = .ok preference ↔ value = encodePreference preference :=
  decodeByte_iff (by rintro (_ | _ | _ | _) <;> rfl) (by decide)

/-! ### Columns -/

theorem i32FromLeBytes_eq_iff {n : I32} {bytes : List UInt8} (hlength : bytes.length = 4) :
    i32FromLeBytes bytes = n ↔ bytes = i32LeBytes n := by
  have hread : readLe bytes < 2 ^ 32 := by simpa [hlength] using readLe_lt bytes
  have hval : (i32FromLeBytes bytes).val = (BitVec.ofNat 32 (readLe bytes)).toInt := rfl
  have hbits : BitVec.ofNat 32 (readLe bytes) = BitVec.ofInt 32 n ↔
      readLe bytes = (BitVec.ofInt 32 n).toNat := by
    rw [← BitVec.toNat_inj, BitVec.toNat_ofNat, Nat.mod_eq_of_lt hread]
  rw [i32LeBytes, eq_leBytes_iff (BitVec.isLt _) hlength, ← hbits, ← Subtype.val_inj,
    hval]
  have hmin : -2147483648 ≤ n.val := n.property.1
  have hmax : n.val ≤ 2147483647 := n.property.2
  constructor
  · intro h
    rw [← h]
    exact (BitVec.ofInt_toInt ..).symm
  · intro h
    rw [h]
    exact BitVec.toInt_ofInt_eq_self (by decide) hmin (Int.lt_add_one_of_le hmax)

theorem length_encodeColumn {column : ColumnState} {record : List UInt8}
    (h : encodeColumn column = .ok record) : record.length = recordLen := by
  rw [encodeColumn] at h
  split at h
  · obtain rfl := Except.ok.inj h
    rw [List.length_append, i32LeBytes, length_leBytes]
    rfl
  · cases h

theorem decodeColumn_iff {column : ColumnState} {record : List UInt8}
    (hlength : record.length = recordLen) :
    decodeColumn record = .ok column ↔ encodeColumn column = .ok record := by
  obtain ⟨visible, rest, rfl⟩ := List.exists_cons_of_length_eq_add_one hlength
  obtain ⟨resized, width, rfl⟩ := List.exists_cons_of_length_eq_add_one (Nat.succ.inj hlength)
  have hwidth : width.length = 4 := Nat.succ.inj (Nat.succ.inj hlength)
  have hrest : (visible :: resized :: width).extract 2 recordLen = width := by
    simp [recordLen, ← hwidth]
  rw [decodeColumn, encodeColumn, hrest]
  simp only [bind_eq_ok_iff, List.getD_cons_zero, List.getD_cons_succ, decodeFlag_iff]
  constructor
  · rintro ⟨_, rfl, _, rfl, h⟩
    split at h
    · next hrange =>
      obtain rfl := Except.ok.inj h
      rw [if_pos hrange, ← (i32FromLeBytes_eq_iff hwidth).1 rfl]
      rfl
    · cases h
  · intro h
    split at h
    · next hrange =>
      obtain ⟨rfl, rfl, hbytes⟩ : encodeFlag column.visible = visible ∧
          encodeFlag column.userResized = resized ∧ i32LeBytes column.widthDip = width := by
        simpa using h
      refine ⟨_, rfl, _, rfl, ?_⟩
      rw [(i32FromLeBytes_eq_iff hwidth).2 hbytes.symm, if_pos hrange]
    · cases h

/-- So many columns are decoded exactly from their records one behind the other. -/
theorem decodeColumns_iff {count : ℕ} {input : List UInt8} {columns : List ColumnState}
    (hlength : count * recordLen ≤ input.length) :
    decodeColumns count input = .ok columns ↔
      columns.length = count ∧ encodeColumns columns = .ok (input.take (count * recordLen)) := by
  induction count generalizing input columns with
  | zero =>
      rw [decodeColumns, Nat.zero_mul, List.take_zero, List.length_eq_zero_iff, Except.ok.injEq]
      constructor
      · rintro rfl
        exact ⟨rfl, rfl⟩
      · rintro ⟨rfl, -⟩
        rfl
  | succ count ih =>
      have hall : (count + 1) * recordLen = recordLen + count * recordLen := by ring
      have hfirst : (input.take recordLen).length = recordLen :=
        List.length_take_of_le (by omega)
      have hrest : count * recordLen ≤ (input.drop recordLen).length := by
        rw [List.length_drop]
        omega
      rw [decodeColumns, hall, List.take_add]
      simp only [bind_eq_ok_iff, decodeColumn_iff hfirst, ih hrest]
      constructor
      · rintro ⟨column, hcolumn, rest, ⟨hcount, hrecords⟩, h⟩
        obtain rfl := Except.ok.inj h
        exact ⟨congrArg Nat.succ hcount, bind_eq_ok_iff.2 ⟨_, hcolumn,
          bind_eq_ok_iff.2 ⟨_, hrecords, rfl⟩⟩⟩
      · rintro ⟨hcount, h⟩
        obtain ⟨column, rest, rfl⟩ := List.exists_cons_of_length_eq_add_one hcount
        simp only [encodeColumns, bind_eq_ok_iff, Except.ok.injEq] at h
        obtain ⟨record, hrecord, records, hrecords, hsame⟩ := h
        obtain ⟨rfl, rfl⟩ := List.append_inj hsame ((length_encodeColumn hrecord).trans hfirst.symm)
        exact ⟨column, hrecord, rest, ⟨Nat.succ.inj hcount, hrecords⟩, rfl⟩

/-! ### Headers -/

theorem header_iff {magic bytes : List UInt8} {version : UInt8} {count : ℕ}
    (hmagic : magic.length = 8) (hcount : count < 256) (hlong : 12 ≤ bytes.length) :
    bytes.take 12 = magic ++ [version, UInt8.ofNat count, 0, 0] ↔
      bytes.take 8 = magic ∧ bytes.getD 8 0 = version ∧ (bytes.getD 9 0).toNat = count ∧
        bytes.extract 10 12 = [0, 0] := by
  have hbyte : bytes.getD 9 0 = UInt8.ofNat count ↔ (bytes.getD 9 0).toNat = count := by
    rw [← UInt8.toNat_inj, UInt8.toNat_ofNat_of_lt' hcount]
  rw [take_eq_append_iff hmagic (by decide) hlong, extract_eq_cons_iff (by decide) hlong,
    extract_eq_cons_iff (by decide) hlong, hbyte]

theorem encodeColumns_length {columns : List ColumnState} {records : List UInt8}
    (h : encodeColumns columns = .ok records) :
    records.length = columns.length * recordLen := by
  induction columns generalizing records with
  | nil =>
      obtain rfl := Except.ok.inj h
      rfl
  | cons column columns ih =>
      simp only [encodeColumns, bind_eq_ok_iff] at h
      obtain ⟨record, hrecord, rest, hrest, h⟩ := h
      obtain rfl := Except.ok.inj h
      rw [List.length_append, length_encodeColumn hrecord, ih hrest, List.length_cons]
      ring

theorem length_columnList (columns : ColumnStates) : (columnList columns).length = columnCount := by
  simp [columnList, primaryColumns, columnCount]

/-- The array holds the columns and nothing else. -/
theorem ofColumnList_eq_iff {list : List ColumnState} {columns : ColumnStates} :
    list.length = columnCount ∧ ofColumnList list = columns ↔ list = columnList columns := by
  constructor
  · rintro ⟨hlength, rfl⟩
    rcases list with _ | ⟨a, _ | ⟨b, _ | ⟨c, _ | ⟨d, _ | ⟨e, _ | ⟨f, _ | ⟨g, _ | ⟨_, _⟩⟩⟩⟩⟩⟩⟩⟩ <;>
      first | rfl | simp [columnCount] at hlength
  · rintro rfl
    refine ⟨length_columnList columns, ?_⟩
    obtain ⟨primary, optional⟩ := columns
    refine congrArg₂ ColumnStates.mk ?_ ?_
    · funext column
      cases column <;> rfl
    · funext index
      rcases index with ⟨_ | _ | _ | _ | i, hi⟩ <;> first | rfl | omega

theorem length_columnHeader : columnHeader.length = headerLen := rfl

theorem columnHeader_iff {bytes : List UInt8} (hlength : bytes.length = serializedLen) :
    bytes.take headerLen = columnHeader ↔
      ¬(bytes.take 8 ≠ magic ∨ bytes.getD 8 0 ≠ formatVersion ∨
        (bytes.getD 9 0).toNat ≠ columnCount ∨ bytes.extract 10 headerLen ≠ [0, 0]) := by
  have hlong : 12 ≤ bytes.length := by
    rw [hlength]
    decide
  simp only [not_or, not_not]
  exact header_iff rfl (by decide) hlong

theorem decodeColumns_drop_iff {bytes : List UInt8} {columns : ColumnStates}
    (hlength : bytes.length = serializedLen) :
    (∃ list, decodeColumns columnCount (bytes.drop headerLen) = .ok list ∧
      ofColumnList list = columns) ↔
        encodeColumns (columnList columns) = .ok (bytes.extract headerLen (headerLen + 42)) := by
  have hlong : columnCount * recordLen ≤ (bytes.drop headerLen).length := by
    rw [List.length_drop, hlength]
    decide
  have hpayload : bytes.extract headerLen (headerLen + 42) =
      (bytes.drop headerLen).take (columnCount * recordLen) := List.extract_eq_take_drop
  rw [hpayload]
  constructor
  · rintro ⟨list, hlist, hsame⟩
    obtain ⟨hcount, hrecords⟩ := (decodeColumns_iff hlong).1 hlist
    rwa [← ofColumnList_eq_iff.1 ⟨hcount, hsame⟩]
  · intro h
    exact ⟨columnList columns, (decodeColumns_iff hlong).2 ⟨length_columnList columns, h⟩,
      (ofColumnList_eq_iff.2 rfl).2⟩

theorem decode_eq_ok_iff {bytes : List UInt8} {columns : ColumnStates} :
    decode bytes = .ok columns ↔ bytes.length = headerLen + 42 + 4 ∧
      bytes.take headerLen = columnHeader ∧
        encodeColumns (columnList columns) = .ok (bytes.extract headerLen (headerLen + 42)) ∧
          (checksum (bytes.take (headerLen + 42))).toNat =
            readLe (bytes.drop (headerLen + 42)) := by
  simp only [decode, ite_error_eq_ok_iff, map_eq_ok_iff]
  rw [ne_eq, not_not]
  refine and_congr_right fun hlength => ?_
  rw [← columnHeader_iff hlength, decodeColumns_drop_iff hlength, ne_eq, not_not]
  exact and_congr_right fun _ => and_comm

/-- The columns are decoded exactly from what they are encoded to. -/
theorem decode_iff {bytes : List UInt8} {columns : ColumnStates} :
    decode bytes = .ok columns ↔ encode columns = .ok bytes := by
  have hpayload : ∀ {records}, encodeColumns (columnList columns) = .ok records →
      records.length = 42 := fun h => by
    rw [encodeColumns_length h, length_columnList]
    rfl
  rw [decode_eq_ok_iff, encode, bind_eq_ok_iff]
  constructor
  · rintro ⟨hlength, hheader, hrecords, hsum⟩
    refine ⟨_, hrecords, congrArg Except.ok ?_⟩
    exact ((eq_withTrailer_append_iff length_columnHeader (hpayload hrecords)).2
      ⟨hlength, hheader, rfl, hsum⟩).symm
  · rintro ⟨records, hrecords, hbytes⟩
    obtain ⟨hlength, hheader, hback, hsum⟩ :=
      (eq_withTrailer_append_iff length_columnHeader (hpayload hrecords)).1
        (Except.ok.inj hbytes).symm
    exact ⟨hlength, hheader, by rw [hback, hrecords], hsum⟩

/-! ### Appearance -/

theorem appearancePayload_iff {bytes : List UInt8} {appearance : UiAppearance}
    (hlong : 20 ≤ bytes.length) :
    bytes.extract 12 20 = appearancePayload appearance ↔
      bytes.getD 12 0 = encodeTheme appearance.theme ∧
      bytes.getD 13 0 = encodeDensity appearance.density ∧
      bytes.getD 14 0 = encodeEmphasis appearance.emphasis ∧
      bytes.getD 15 0 = encodeFlag appearance.showSeparators ∧
      bytes.getD 16 0 = encodeFlag appearance.showPreviewTint ∧
      bytes.getD 17 0 = encodeFlag appearance.showEmptySafety ∧ bytes.extract 18 20 = [0, 0] := by
  rw [appearancePayload]
  iterate 6 rw [extract_eq_cons_iff (by decide) hlong]

theorem decodeAppearance_iff {bytes : List UInt8} {appearance : UiAppearance} :
    decodeAppearance bytes = .ok appearance ↔ encodeAppearance appearance = bytes := by
  rw [encodeAppearance, eq_comm (b := bytes),
    eq_withTrailer_append_iff (m := 12) (n := 8) rfl rfl]
  simp only [decodeAppearance, ite_error_eq_ok_iff, bind_eq_ok_iff, decodeTheme_iff,
    decodeDensity_iff, decodeEmphasis_iff, decodeFlag_iff]
  rw [ne_eq, not_not]
  refine and_congr_right fun hlength => ?_
  have hlong : 20 ≤ bytes.length := by
    rw [hlength]
    decide
  have hheader : bytes.take 12 = appearanceHeader ↔ _ :=
    header_iff rfl (by decide) (Nat.le_trans (by decide) hlong)
  rw [hheader, appearancePayload_iff hlong]
  constructor
  · rintro ⟨hhead, hsum, hreserved, _, htheme, _, hdensity, _, hemphasis, _, hseparators, _, htint,
      _, hsafety, h⟩
    obtain rfl := Except.ok.inj h
    simp only [not_or, not_not] at hhead
    exact ⟨hhead, ⟨htheme, hdensity, hemphasis, hseparators, htint, hsafety, not_not.1 hreserved⟩,
      not_not.1 hsum⟩
  · rintro ⟨hhead, ⟨htheme, hdensity, hemphasis, hseparators, htint, hsafety, hreserved⟩, hsum⟩
    refine ⟨?_, not_not.2 hsum, not_not.2 hreserved, _, htheme, _, hdensity, _, hemphasis, _,
      hseparators, _, htint, _, hsafety, rfl⟩
    simp only [not_or, not_not]
    exact hhead

/-! ### Language -/

theorem decodeLanguage_iff {bytes : List UInt8} {preference : LanguagePreference} :
    decodeLanguage bytes = .ok preference ↔ encodeLanguage preference = bytes := by
  have hbytes : languageMagic ++ [1, 0, 0, 0, encodePreference preference, 0, 0, 0] =
      (languageMagic ++ [1, 0, 0, 0]) ++ [encodePreference preference, 0, 0, 0] := rfl
  rw [encodeLanguage, eq_comm (b := bytes), hbytes,
    eq_withTrailer_append_iff (m := 12) (n := 4) rfl rfl, decodeLanguage, ite_error_eq_ok_iff,
    decodePreference_iff]
  simp only [not_or, not_not, and_assoc]
  refine and_congr_right fun hlength => ?_
  have hlong : 16 ≤ bytes.length := by
    rw [hlength]
    decide
  have hdrop : (bytes.drop 16).length = 4 := by
    rw [List.length_drop, hlength]
    rfl
  have hheader : bytes.take 12 = languageMagic ++ [1, 0, 0, 0] ↔
      bytes.take 8 = languageMagic ∧ bytes.getD 8 0 = 1 ∧ bytes.extract 9 12 = [0, 0, 0] := by
    rw [take_eq_append_iff (m := 8) rfl (by decide) (by omega),
      extract_eq_cons_iff (by decide) (by omega)]
  have hpayload : bytes.extract 12 16 = [encodePreference preference, 0, 0, 0] ↔
      bytes.getD 12 0 = encodePreference preference ∧ bytes.extract 13 16 = [0, 0, 0] :=
    extract_eq_cons_iff (by decide) hlong
  have hsum : bytes.drop 16 = leBytes 4 (checksum (bytes.take 16)).toNat ↔
      (checksum (bytes.take 16)).toNat = readLe (bytes.drop 16) := by
    rw [eq_leBytes_iff (checksum (bytes.take 16)).toNat_lt hdrop, eq_comm]
  rw [hheader, hpayload, hsum]
  tauto

/-! ### All three -/

/-- The format is exact: a decoder that accepts what the encoder writes and nothing else, and no
record is a record still when one byte of it is changed. -/
structure Exact {V : Type} (encode : V → Except SettingsError (List UInt8))
    (decode : List UInt8 → Except SettingsError V) : Prop where
  decoded : ∀ bytes settings, decode bytes = .ok settings ↔ encode settings = .ok bytes
  damaged : ∀ bytes settings, decode bytes = .ok settings → ∀ i < bytes.length, ∀ byte,
    bytes.getD i 0 ≠ byte → ∀ other, decode (bytes.set i byte) ≠ .ok other

/-- Where every record is a body of one length and its checksum, exactness is the round trip. -/
theorem exact_of_decoded {V : Type} {encode : V → Except SettingsError (List UInt8)}
    {decode : List UInt8 → Except SettingsError V} {n : ℕ}
    (decoded : ∀ bytes settings, decode bytes = .ok settings ↔ encode settings = .ok bytes)
    (hbody : ∀ bytes settings, encode settings = .ok bytes →
      ∃ body, body.length = n ∧ bytes = withTrailer checksum body) : Exact encode decode where
  decoded := decoded
  damaged bytes settings hdecoded i hi byte hbyte other hother := by
    obtain ⟨body, hlength, rfl⟩ := hbody _ _ ((decoded _ _).1 hdecoded)
    obtain ⟨body', hlength', hsame⟩ := hbody _ _ ((decoded _ _).1 hother)
    exact withTrailer_set_ne noticesOneByte_checksum (hlength.trans hlength'.symm) hi hbyte hsame

theorem body_of_encode {columns : ColumnStates} {bytes : List UInt8}
    (h : encode columns = .ok bytes) :
    ∃ body, body.length = headerLen + 42 ∧ bytes = withTrailer checksum body := by
  simp only [encode, bind_eq_ok_iff, Except.ok.injEq] at h
  obtain ⟨records, hrecords, rfl⟩ := h
  refine ⟨_, ?_, rfl⟩
  rw [List.length_append, length_columnHeader, encodeColumns_length hrecords, length_columnList]
  rfl

end Preferences

end DarkReNamer
