import DarkReNamer.Workbench.Allocation
import DarkReNamer.Workbench.SourceChunks
import Mathlib.Data.List.Basic
import Mathlib.Order.Nat

/-!
# Sorted chunks

With a comparator that is a total preorder, chunks whose flattening is in order are searched
correctly, and an insertion keeps them in order and within the capacity. Sources that compare
equal may run over several chunks; the first chunk that does not end below a source holds the
first of its equals, if there is any.
-/

namespace DarkReNamer

open Interaction Slices Std

variable {compareText : LegacyText → LegacyText → Ordering}

/-- Chunks of sources in order. -/
structure Chunked (compareText : LegacyText → LegacyText → Ordering)
    (chunks : List (List LegacyText)) : Prop where
  ascending : Ascending compareText chunks.flatten
  nonempty : ∀ chunk ∈ chunks, chunk ≠ []
  le_capacity : ∀ chunk ∈ chunks, chunk.length ≤ appendIndexChunkCapacity

/-- The end of a chunk tells how the whole chunk compares. -/
def endsBelow (compareText : LegacyText → LegacyText → Ordering) (source : LegacyText)
    (chunk : List LegacyText) : Bool :=
  chunk.getLast?.all fun last => compareText last source == .lt

section Search

variable (alg : Slices.Algorithms) [TransCmp compareText]
  {chunks : List (List LegacyText)} (source : LegacyText)

theorem lt_of_endsBelow {chunk : List LegacyText} (h : Ascending compareText chunk)
    (hbelow : endsBelow compareText source chunk = true) :
    ∀ a ∈ chunk, compareText a source = .lt := by
  intro a ha
  rcases List.eq_nil_or_concat' chunk with rfl | ⟨front, last, rfl⟩
  · simp at ha
  · have hlast : compareText last source = .lt := by simpa [endsBelow] using hbelow
    rcases List.mem_append.1 ha with ha | ha
    · have hle := (ascending_append.1 h).2.2 a ha last (by simp)
      exact TransCmp.lt_of_isLE_of_lt hle hlast
    · rwa [List.mem_singleton.1 ha]

/-- What follows an end that is not below a source is not below it either. -/
theorem isLE_of_not_endsBelow {chunk : List LegacyText}
    (hbelow : ¬endsBelow compareText source chunk = true) :
    ∃ front last, chunk = front ++ [last] ∧ (compareText source last).isLE := by
  rcases List.eq_nil_or_concat' chunk with rfl | ⟨front, last, rfl⟩
  · exact absurd rfl hbelow
  · refine ⟨front, last, rfl, ?_⟩
    have hlast : compareText last source ≠ .lt := by simpa [endsBelow] using hbelow
    exact OrientedCmp.isLE_of_isGE (by cases h : compareText last source <;> simp_all)

theorem Chunked.partitioned (h : Chunked compareText chunks) :
    Partitioned (endsBelow compareText source) chunks := by
  have hflat := h.ascending
  rw [Ascending, List.pairwise_flatten] at hflat
  refine List.Pairwise.imp_of_mem ?_ hflat.2
  intro front back hfront hback hcross hbelow
  have hlt := lt_of_endsBelow source (hflat.1 back hback) hbelow
  obtain ⟨b, hb⟩ := List.exists_mem_of_ne_nil back (h.nonempty back hback)
  rcases List.eq_nil_or_concat' front with rfl | ⟨init, last, rfl⟩
  · exact absurd rfl (h.nonempty _ hfront)
  · have hle := hcross last (by simp) b hb
    simpa [endsBelow] using TransCmp.lt_of_isLE_of_lt hle (hlt b hb)

/-- The chunks cut in front of the first one that does not end below the source. -/
theorem Chunked.exists_cut (h : Chunked compareText chunks) :
    ∃ front back, chunks = front ++ back ∧
      chunkIndexFor alg compareText chunks source = front.length ∧
      (∀ a ∈ front.flatten, compareText a source = .lt) ∧
      ∀ chunk rest, back = chunk :: rest → ¬endsBelow compareText source chunk = true := by
  have hpartitioned := h.partitioned source
  refine ⟨chunks.takeWhile (endsBelow compareText source),
    chunks.dropWhile (endsBelow compareText source), List.takeWhile_append_dropWhile.symm,
    alg.partitionPoint_eq _ _ hpartitioned, ?_, ?_⟩
  · intro a ha
    obtain ⟨chunk, hchunk, ha⟩ := List.mem_flatten.1 ha
    have hflat := h.ascending
    rw [Ascending, List.pairwise_flatten] at hflat
    exact lt_of_endsBelow source
      (hflat.1 chunk ((List.takeWhile_sublist _).subset hchunk))
        (List.mem_takeWhile_imp hchunk) a ha
  · intro chunk rest hback
    exact hpartitioned.not_of_mem_dropWhile (by rw [hback]; exact List.mem_cons_self)

omit [TransCmp compareText] in
/-- The chunk in which a source is looked for, between the others. -/
theorem Chunked.of_cons {front : List (List LegacyText)} {chunk : List LegacyText}
    {rest : List (List LegacyText)}
    (h : Chunked compareText (front ++ chunk :: rest)) :
    Ascending compareText chunk ∧ ∀ a ∈ chunk, ∀ b ∈ rest.flatten, (compareText a b).isLE := by
  have hflat := h.ascending
  rw [List.flatten_append, List.flatten_cons] at hflat
  obtain ⟨-, hback, -⟩ := ascending_append.1 hflat
  exact ⟨(ascending_append.1 hback).1, (ascending_append.1 hback).2.2⟩

theorem isLE_rest {front : List (List LegacyText)} {chunk : List LegacyText}
    {rest : List (List LegacyText)} (h : Chunked compareText (front ++ chunk :: rest))
    (hbelow : ¬endsBelow compareText source chunk = true) :
    ∀ b ∈ rest.flatten, (compareText source b).isLE := by
  obtain ⟨init, last, rfl, hlast⟩ := isLE_of_not_endsBelow source hbelow
  intro b hb
  exact TransCmp.isLE_trans hlast (h.of_cons.2 last (by simp) b hb)

/-- The search finds a source exactly when the chunks hold one that compares equal. -/
theorem Chunked.contains_iff (h : Chunked compareText chunks) :
    sourceChunksContain alg compareText chunks source = true ↔
      ∃ a ∈ chunks.flatten, compareText a source = .eq := by
  obtain ⟨front, back, rfl, hindex, hfront, hback⟩ := h.exists_cut alg source
  rw [sourceChunksContain, hindex]
  cases back with
  | nil =>
      rw [List.append_nil, List.getElem?_eq_none le_rfl]
      simp only [Option.any_none, Bool.false_eq_true, false_iff]
      rintro ⟨a, ha, heq⟩
      rw [hfront a ha] at heq
      cases heq
  | cons chunk rest =>
      have hbelow := hback chunk rest rfl
      obtain ⟨hascending, hcross⟩ := h.of_cons
      have hget : (front ++ chunk :: rest)[front.length]? = some chunk := by simp
      rw [hget, Option.any_some]
      cases hsearch : alg.binarySearchBy (fun a => compareText a source) chunk with
      | ok i =>
          obtain ⟨a, ha, heq⟩ :=
            alg.binarySearchBy_ok _ _ _ (hascending.searchOrdered source) hsearch
          simp only [Except.isOk, Except.toBool, true_iff]
          exact ⟨a, by simp [List.mem_of_getElem? ha], heq⟩
      | error i =>
          obtain ⟨-, hne⟩ :=
            alg.binarySearchBy_error _ _ _ (hascending.searchOrdered source) hsearch
          simp only [Except.isOk, Except.toBool, Bool.false_eq_true, false_iff]
          rintro ⟨a, ha, heq⟩
          rw [List.flatten_append, List.flatten_cons, List.mem_append, List.mem_append] at ha
          rcases ha with ha | ha | ha
          · rw [hfront a ha] at heq
            cases heq
          · exact hne a ha heq
          · obtain ⟨init, last, rfl, hlast⟩ := isLE_of_not_endsBelow source hbelow
            have hle := hcross last (by simp) a ha
            rw [TransCmp.congr_right heq] at hle
            exact hne last (by simp) (OrientedCmp.isLE_antisymm hle hlast)

end Search

/-! ### Insertions -/

/-- What an insertion leaves: the source between what is not above and what is not below it. -/
structure Inserted (compareText : LegacyText → LegacyText → Ordering) (source : LegacyText)
    (chunks chunks' : List (List LegacyText)) : Prop where
  chunked : Chunked compareText chunks'
  perm : chunks'.flatten.Perm (source :: chunks.flatten)

theorem insertIdx_eq {chunk : List LegacyText} {position : ℕ} {source : LegacyText}
    (h : position ≤ chunk.length) :
    chunk.insertIdx position source = chunk.take position ++ source :: chunk.drop position := by
  induction chunk generalizing position with
  | nil =>
      obtain rfl : position = 0 := by simpa using h
      rfl
  | cons a chunk ih =>
      cases position with
      | zero => rfl
      | succ position => simpa using ih (by simpa using h)

/-- The halves of a split chunk hold what the chunk held, with the source at its position. -/
theorem splitInsert_flatten {chunk : List LegacyText} {position : ℕ} (source : LegacyText)
    (h : position ≤ chunk.length) (hfull : appendIndexChunkCapacity / 2 ≤ chunk.length) :
    (splitInsert chunk position source).flatten =
      chunk.take position ++ source :: chunk.drop position := by
  obtain ⟨left, right, rfl, hleft⟩ : ∃ left right, chunk = left ++ right ∧
      left.length = appendIndexChunkCapacity / 2 :=
    ⟨_, _, (List.take_append_drop (appendIndexChunkCapacity / 2) chunk).symm,
      List.length_take_of_le hfull⟩
  simp only [splitInsert, List.take_left' hleft, List.drop_left' hleft]
  split
  · have hle : position ≤ left.length := by omega
    rw [insertIdx_eq hle, List.take_append_of_le_length hle, List.drop_append_of_le_length hle]
    simp
  · rw [List.length_append] at h
    have hle : position - left.length ≤ right.length := by omega
    have hlong : left.length ≤ position := by omega
    rw [← hleft, insertIdx_eq hle, List.take_append, List.drop_append,
      List.take_of_length_le hlong, List.drop_eq_nil_of_le hlong]
    simp

theorem length_splitInsert {chunk : List LegacyText} (position : ℕ) (source : LegacyText)
    (hfull : chunk.length = appendIndexChunkCapacity) :
    ∀ half ∈ splitInsert chunk position source,
      half ≠ [] ∧ half.length ≤ appendIndexChunkCapacity := by
  have hcapacity : appendIndexChunkCapacity = 128 := rfl
  intro half hhalf
  simp only [splitInsert] at hhalf
  split at hhalf
  · rcases List.mem_pair.1 hhalf with rfl | rfl
    · rw [← List.length_pos_iff, List.length_insertIdx, List.length_take]
      split <;> omega
    · rw [← List.length_pos_iff, List.length_drop]
      omega
  · rcases List.mem_pair.1 hhalf with rfl | rfl
    · rw [← List.length_pos_iff, List.length_take]
      omega
    · rw [← List.length_pos_iff, List.length_insertIdx, List.length_drop]
      split <;> omega

/-- Chunks that hold the same with the source at a place where it belongs. -/
theorem Chunked.inserted [TransCmp compareText] {chunks chunks' : List (List LegacyText)}
    {source : LegacyText} {before after : List LegacyText} (h : Chunked compareText chunks)
    (hflatten : chunks.flatten = before ++ after)
    (hflatten' : chunks'.flatten = before ++ source :: after)
    (hbefore : ∀ a ∈ before, (compareText a source).isLE)
    (hafter : ∀ b ∈ after, (compareText source b).isLE)
    (hlength : ∀ chunk ∈ chunks', chunk ≠ [] ∧ chunk.length ≤ appendIndexChunkCapacity) :
    Inserted compareText source chunks chunks' where
  chunked :=
    { ascending := hflatten' ▸ (hflatten ▸ h.ascending).insert hbefore hafter
      nonempty := fun chunk hchunk => (hlength chunk hchunk).1
      le_capacity := fun chunk hchunk => (hlength chunk hchunk).2 }
  perm := by
    rw [hflatten, hflatten']
    exact List.perm_middle

section Insert

variable (alg : Slices.Algorithms) [TransCmp compareText]
  {chunks : List (List LegacyText)} (source : LegacyText)

/-- No chunk ends above the source: it goes behind all others. -/
theorem Chunked.insert_last (h : Chunked compareText chunks)
    (hindex : chunkIndexFor alg compareText chunks source = chunks.length)
    (hbelow : ∀ a ∈ chunks.flatten, compareText a source = .lt) :
    AllocatesOr .allocationFailed
      (fun r => ∃ chunks', r = .ok chunks' ∧ Inserted compareText source chunks chunks')
      (tryInsertSource alg compareText chunks source) := by
  have hinserted {chunks' : List (List LegacyText)}
      (hflatten : chunks'.flatten = chunks.flatten ++ [source])
      (hlength : ∀ chunk ∈ chunks',
        chunk ≠ [] ∧ chunk.length ≤ appendIndexChunkCapacity) :
      Inserted compareText source chunks chunks' :=
    h.inserted (List.append_nil _).symm hflatten (fun a ha => by simp [hbelow a ha]) (by simp)
      hlength
  have hnew : Inserted compareText source chunks (chunks ++ [[source]]) := by
    refine hinserted (by simp) fun chunk hchunk => ?_
    rcases List.mem_append.1 hchunk with hchunk | hchunk
    · exact ⟨h.nonempty chunk hchunk, h.le_capacity chunk hchunk⟩
    · rw [List.mem_singleton.1 hchunk]
      exact ⟨by simp, by simp [appendIndexChunkCapacity]⟩
  have hpushed (location : ℕ × ℕ) (hlocation : chunks[location.1]? = none)
      (heq : insertionLocation alg compareText chunks source = location) :
      AllocatesOr .allocationFailed
        (fun r => ∃ chunks', r = .ok chunks' ∧ Inserted compareText source chunks chunks')
        (tryInsertSource alg compareText chunks source) := by
    simp only [tryInsertSource, heq, hlocation]
    exact .reserving_bind (.reserving_bind (.pure ⟨_, rfl, hnew⟩))
  have hnone : chunks[chunks.length]? = none := List.getElem?_eq_none le_rfl
  rcases List.eq_nil_or_concat' chunks with rfl | ⟨front, last, rfl⟩
  · exact hpushed (0, 0) rfl (by simp [insertionLocation])
  · by_cases hroom : last.length < appendIndexChunkCapacity
    · have hlocation : insertionLocation alg compareText (front ++ [last]) source =
          (front.length, last.length) := by
        simp [insertionLocation, hindex, hroom]
      have hget : (front ++ [last])[front.length]? = some last := by simp
      simp only [tryInsertSource, hlocation, hget, hroom, if_true]
      refine .pure ⟨_, rfl, hinserted ?_ fun chunk hchunk => ?_⟩
      · simp
      · rw [List.set_append_right _ _ le_rfl, Nat.sub_self, List.set_cons_zero] at hchunk
        rcases List.mem_append.1 hchunk with hchunk | hchunk
        · exact ⟨h.nonempty chunk (by simp [hchunk]), h.le_capacity chunk (by simp [hchunk])⟩
        · rw [List.mem_singleton.1 hchunk, List.insertIdx_length_self]
          exact ⟨by simp, by rw [List.length_append, List.length_singleton]; omega⟩
    · refine hpushed ((front ++ [last]).length, 0) hnone ?_
      simp [insertionLocation, hindex, hroom]

/-- The source goes into the first chunk that does not end below it. -/
theorem Chunked.insert_inside {front : List (List LegacyText)} {chunk : List LegacyText}
    {rest : List (List LegacyText)} (h : Chunked compareText (front ++ chunk :: rest))
    (hindex : chunkIndexFor alg compareText (front ++ chunk :: rest) source = front.length)
    (hfront : ∀ a ∈ front.flatten, compareText a source = .lt)
    (hbelow : ¬endsBelow compareText source chunk = true) :
    AllocatesOr .allocationFailed
      (fun r => ∃ chunks', r = .ok chunks' ∧
        Inserted compareText source (front ++ chunk :: rest) chunks')
      (tryInsertSource alg compareText (front ++ chunk :: rest) source) := by
  obtain ⟨position, hsearch, hlocation⟩ : ∃ position,
      (alg.binarySearchBy (fun a => compareText a source) chunk = .ok position ∨
        alg.binarySearchBy (fun a => compareText a source) chunk = .error position) ∧
      insertionLocation alg compareText (front ++ chunk :: rest) source =
        (front.length, position) := by
    cases hsearch : alg.binarySearchBy (fun a => compareText a source) chunk with
    | ok position => exact ⟨position, .inl rfl, by simp [insertionLocation, hindex, hsearch]⟩
    | error position => exact ⟨position, .inr rfl, by simp [insertionLocation, hindex, hsearch]⟩
  obtain ⟨hposition, hbefore, hafter⟩ := alg.binarySearchBy_cut h.of_cons.1 hsearch
  have hsplit := List.take_append_drop position chunk
  -- Whatever becomes of the chunk, its elements keep their places around the source.
  have hinserted {middle : List (List LegacyText)}
      (hmiddle : middle.flatten = chunk.take position ++ source :: chunk.drop position)
      (hlength : ∀ chunk ∈ middle, chunk ≠ [] ∧ chunk.length ≤ appendIndexChunkCapacity) :
      Inserted compareText source (front ++ chunk :: rest) (front ++ middle ++ rest) := by
    have hflatten : (front ++ chunk :: rest).flatten =
        (front.flatten ++ chunk.take position) ++ (chunk.drop position ++ rest.flatten) := by
      rw [List.flatten_append, List.flatten_cons, List.append_assoc,
        ← List.append_assoc (chunk.take position), hsplit]
    refine h.inserted hflatten (by simp [hmiddle]) ?_ ?_ ?_
    · intro a ha
      rcases List.mem_append.1 ha with ha | ha
      · simp [hfront a ha]
      · exact hbefore a ha
    · intro b hb
      rcases List.mem_append.1 hb with hb | hb
      · exact hafter b hb
      · exact isLE_rest source h hbelow b hb
    · intro chunk' hchunk
      rcases List.mem_append.1 hchunk with hchunk | hchunk
      · rcases List.mem_append.1 hchunk with hchunk | hchunk
        · exact ⟨h.nonempty _ (by simp [hchunk]), h.le_capacity _ (by simp [hchunk])⟩
        · exact hlength chunk' hchunk
      · exact ⟨h.nonempty _ (by simp [hchunk]), h.le_capacity _ (by simp [hchunk])⟩
  have hget : (front ++ chunk :: rest)[front.length]? = some chunk := by simp
  simp only [tryInsertSource, hlocation, hget]
  split
  · rename_i hroom
    refine .pure ⟨_, rfl, ?_⟩
    have hset : (front ++ chunk :: rest).set front.length (chunk.insertIdx position source) =
        front ++ [chunk.insertIdx position source] ++ rest := by
      rw [List.set_append_right _ _ le_rfl, Nat.sub_self, List.set_cons_zero]
      simp
    rw [hset]
    refine hinserted (by simp [insertIdx_eq hposition]) fun chunk' hchunk => ?_
    rw [List.mem_singleton.1 hchunk, ← List.length_pos_iff, List.length_insertIdx]
    split <;> omega
  · rename_i hroom
    have hcapacity : appendIndexChunkCapacity = 128 := rfl
    have hfull : chunk.length = appendIndexChunkCapacity :=
      Nat.le_antisymm (h.le_capacity chunk (by simp)) (Nat.not_lt.1 hroom)
    refine .reserving_bind (.reserving_bind (.pure ⟨_, rfl, ?_⟩))
    have hdrop : (front ++ chunk :: rest).drop (front.length + 1) = rest := by
      rw [List.append_cons, List.drop_left' (by simp)]
    rw [List.take_left' rfl, hdrop]
    exact hinserted (splitInsert_flatten source hposition (by omega))
      (length_splitInsert position source hfull)

/-- The spec of one insertion. -/
theorem Chunked.tryInsertSource (h : Chunked compareText chunks) :
    AllocatesOr .allocationFailed
      (fun r => ∃ chunks', r = .ok chunks' ∧ Inserted compareText source chunks chunks')
      (tryInsertSource alg compareText chunks source) := by
  obtain ⟨front, back, rfl, hindex, hfront, hback⟩ := h.exists_cut alg source
  cases back with
  | nil =>
      rw [List.append_nil] at h hindex ⊢
      exact h.insert_last alg source hindex hfront
  | cons chunk rest =>
      exact h.insert_inside alg source hindex hfront (hback chunk rest rfl)

theorem Chunked.insertSources (h : Chunked compareText chunks) (sources : List LegacyText) :
    AllocatesOr .allocationFailed
      (fun r => ∃ chunks', r = .ok chunks' ∧ Chunked compareText chunks' ∧
        chunks'.flatten.Perm (sources ++ chunks.flatten))
      (insertSources alg compareText chunks sources) := by
  induction sources generalizing chunks with
  | nil => exact .pure ⟨chunks, rfl, h, .refl _⟩
  | cons source sources ih =>
      refine .bind_ok (q := Inserted compareText source chunks)
        (h.tryInsertSource alg source) fun chunks₁ hinserted => ?_
      have hperm {chunks' : List (List LegacyText)}
          (hrest : chunks'.flatten.Perm (sources ++ chunks₁.flatten)) :
          chunks'.flatten.Perm (source :: sources ++ chunks.flatten) :=
        hrest.trans ((hinserted.perm.append_left sources).trans List.perm_middle)
      refine Allocates.mono (ih hinserted.chunked) ?_
      rintro r ⟨chunks', rfl, hchunked, hrest⟩
      exact ⟨chunks', rfl, hchunked, hperm hrest⟩

end Insert

/-! ### New chunks -/

/-- Sources in order are cut into chunks that hold them in order. -/
theorem allocates_chunkSources (sources : List LegacyText) :
    AllocatesOr .allocationFailed
      (fun r => ∃ chunks, r = .ok chunks ∧ chunks.flatten = sources ∧
        ∀ chunk ∈ chunks, chunk ≠ [] ∧ chunk.length ≤ appendIndexChunkCapacity)
      (chunkSources sources) := by
  induction sources using chunkSources.induct with
  | case1 =>
      rw [chunkSources]
      exact .pure ⟨[], rfl, rfl, by simp⟩
  | case2 first rest ih =>
      rw [chunkSources]
      refine .reserving_bind (.bind_ok ih ?_)
      rintro chunks ⟨hflatten, hlength⟩
      refine .pure ⟨_, rfl, by simp [hflatten], fun chunk hchunk => ?_⟩
      rcases List.mem_cons.1 hchunk with rfl | hchunk
      · have hcapacity : appendIndexChunkCapacity = 128 := rfl
        exact ⟨by simp, by simp; omega⟩
      · exact hlength chunk hchunk

theorem allocates_tryChunkSortedSources {sources : List LegacyText}
    (h : Ascending compareText sources) :
    AllocatesOr .allocationFailed
      (fun r => ∃ chunks, r = .ok chunks ∧ Chunked compareText chunks ∧ chunks.flatten = sources)
      (tryChunkSortedSources sources) := by
  refine .reserving_bind (Allocates.mono (allocates_chunkSources sources) ?_)
  rintro r ⟨chunks, rfl, rfl, hlength⟩
  exact ⟨chunks, rfl, ⟨h, fun chunk hchunk => (hlength chunk hchunk).1,
    fun chunk hchunk => (hlength chunk hchunk).2⟩, rfl⟩

end DarkReNamer
