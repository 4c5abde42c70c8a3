import JustApi.Core.StaticFiles

/-! # Ranges of a file

Which bytes of a file a range asks for, and when a range response has exactly those. -/
namespace JustApi.Core.StaticFiles
open JustApi.Lib.Text JustApi.Core.Http JustApi.Core.Crud

namespace ByteRange

/-- The range asks for the byte at the place. -/
def Requests (range : ByteRange) (totalLen i : Nat) : Prop :=
  match range with
  | .startEnd start stop => start ≤ i ∧ i ≤ stop
  | .startFrom start => start ≤ i
  | .suffix len => totalLen ≤ i + len

instance (range : ByteRange) (totalLen i : Nat) : Decidable (range.Requests totalLen i) := by
  unfold Requests
  split <;> infer_instance

/-- What is asked for, as far as the file has it. -/
def requestedBytes (range : ByteRange) (bytes : Bytes) : Bytes :=
  (bytes.zipIdx.filter fun b => range.Requests bytes.length b.2).map Prod.fst

/-- The absolute range lies in the file and is what is asked for. -/
structure Exact (range : ByteRange) (totalLen start stop : Nat) : Prop where
  ordered : start ≤ stop
  inFile : stop < totalLen
  requested : ∀ i, start ≤ i ∧ i ≤ stop ↔ range.Requests totalLen i ∧ i < totalLen

/-- The range does not begin behind the file. -/
def Begins (range : ByteRange) (totalLen : Nat) : Prop :=
  match range with
  | .startEnd start _ | .startFrom start => start < totalLen
  | .suffix _ => True

/-- What parsing leaves of the numbers. -/
def Parsed (range : ByteRange) (totalLen : Nat) : Prop :=
  match range with
  | .startEnd start stop => start ≤ stop
  | .startFrom _ => True
  | .suffix len => 0 < len ∧ len ≤ totalLen

end ByteRange

variable {range : ByteRange} {rangeStr : List Char} {totalLen start stop : Nat}

theorem parseRange_ok (h : parseRange rangeStr totalLen = some range) : range.Parsed totalLen := by
  unfold parseRange at h
  dsimp only at h
  split at h
  · cases h
  split at h
  · split at h
    · obtain ⟨len, -, h⟩ := Option.bind_eq_some_iff.mp h
      split at h
      · cases h
      · cases h
        simp only [ByteRange.Parsed]
        omega
    · split at h
      · obtain ⟨start, -, rfl⟩ := Option.map_eq_some_iff.mp h
        trivial
      · obtain ⟨start, -, h⟩ := Option.bind_eq_some_iff.mp h
        obtain ⟨stop, -, h⟩ := Option.bind_eq_some_iff.mp h
        split at h
        · cases h
        · cases h
          exact Nat.le_of_not_lt ‹_›
  · cases h

/-- The absolute range is the requested part of the file, unless all of that is behind
the end. -/
theorem exact_iff (hparsed : range.Parsed totalLen) :
    range.Exact totalLen (range.intoAbsRange totalLen).1 (range.intoAbsRange totalLen).2 ↔
      range.Begins totalLen := by
  constructor
  · intro hexact
    have hfirst := (hexact.requested _).mp ⟨Nat.le_refl _, hexact.ordered⟩
    cases range with
    | startEnd start stop => exact Nat.lt_of_le_of_lt hfirst.1.1 hfirst.2
    | startFrom start => exact Nat.lt_of_le_of_lt hfirst.1 hfirst.2
    | suffix len => trivial
  · intro hbegins
    cases range with
    | startEnd start stop =>
      simp only [ByteRange.Begins, ByteRange.Parsed] at hbegins hparsed
      refine ⟨?_, ?_, fun i => ?_⟩ <;> simp only [ByteRange.intoAbsRange, ByteRange.Requests] <;> omega
    | startFrom start =>
      simp only [ByteRange.Begins] at hbegins
      refine ⟨?_, ?_, fun i => ?_⟩ <;> simp only [ByteRange.intoAbsRange, ByteRange.Requests] <;> omega
    | suffix len =>
      simp only [ByteRange.Parsed] at hparsed
      refine ⟨?_, ?_, fun i => ?_⟩ <;> simp only [ByteRange.intoAbsRange, ByteRange.Requests] <;> omega

/-! ## The response -/

theorem filter_zipIdx_none {p : Nat → Bool} {bytes : Bytes} {n : Nat}
    (h : ∀ i, n ≤ i → i < n + bytes.length → p i = false) :
    (bytes.zipIdx n).filter (fun b => p b.2) = [] := by
  refine List.filter_eq_nil_iff.mpr fun b hb => ?_
  obtain ⟨hle, hlt, -⟩ := List.mem_zipIdx hb
  simp [h b.2 hle hlt]

theorem filter_zipIdx_all {p : Nat → Bool} {bytes : Bytes} {n : Nat}
    (h : ∀ i, n ≤ i → i < n + bytes.length → p i = true) :
    (bytes.zipIdx n).filter (fun b => p b.2) = bytes.zipIdx n := by
  refine List.filter_eq_self.mpr fun b hb => ?_
  obtain ⟨hle, hlt, -⟩ := List.mem_zipIdx hb
  exact h b.2 hle hlt

theorem filter_zipIdx_between {p : Nat → Bool} {bytes : Bytes} (hordered : start ≤ stop)
    (hin : stop < bytes.length) (hp : ∀ i < bytes.length, p i = true ↔ start ≤ i ∧ i ≤ stop) :
    (bytes.zipIdx.filter fun b => p b.2).map Prod.fst =
      (bytes.drop start).take (stop - start + 1) := by
  have hsplit : bytes = bytes.take start ++ ((bytes.drop start).take (stop - start + 1) ++
      (bytes.drop start).drop (stop - start + 1)) := by
    rw [List.take_append_drop, List.take_append_drop]
  have hbefore : (bytes.take start).length = start := by
    rw [List.length_take]
    omega
  have hwithin : ((bytes.drop start).take (stop - start + 1)).length = stop - start + 1 := by
    rw [List.length_take, List.length_drop]
    omega
  have hafter : ((bytes.drop start).drop (stop - start + 1)).length = bytes.length - (stop + 1) := by
    rw [List.length_drop, List.length_drop]
    omega
  have hout : ∀ i < bytes.length, i < start ∨ stop < i → p i = false := by
    intro i hi hor
    refine Bool.eq_false_iff.mpr fun he => ?_
    have := (hp i hi).mp he
    omega
  conv_lhs => rw [hsplit]
  rw [List.zipIdx_append, List.zipIdx_append, List.filter_append, List.filter_append, hbefore,
    hwithin]
  have hfirst : ((bytes.take start).zipIdx).filter (fun b => p b.2) = [] :=
    filter_zipIdx_none fun i _ hlt => hout i (by omega) (by omega)
  have hmiddle : (((bytes.drop start).take (stop - start + 1)).zipIdx (0 + start)).filter
      (fun b => p b.2) = ((bytes.drop start).take (stop - start + 1)).zipIdx (0 + start) :=
    filter_zipIdx_all fun i _ hlt => (hp i (by omega)).mpr (by omega)
  have hlast : (((bytes.drop start).drop (stop - start + 1)).zipIdx
      (0 + start + (stop - start + 1))).filter (fun b => p b.2) = [] :=
    filter_zipIdx_none fun i _ hlt => hout i (by omega) (by omega)
  rw [hfirst, hmiddle, hlast, List.nil_append, List.append_nil, List.zipIdx_map_fst]

/-- The bytes from the first to the last place are those asked for. -/
theorem requestedBytes_eq {bytes : Bytes} (h : range.Exact bytes.length start stop) :
    range.requestedBytes bytes = (bytes.drop start).take (stop - start + 1) := by
  refine filter_zipIdx_between (p := fun i => range.Requests bytes.length i) h.ordered h.inFile ?_
  intro i hi
  rw [decide_eq_true_eq, h.requested i, and_iff_left hi]

/-- A range in the file is read in full, and its length does not wrap around. -/
theorem serveRange_of_exact {fs : FileSystem} {path : List Char} {etag contentType : String}
    {bytes : Bytes} (hread : fs.read path = .ok bytes) (hlen : bytes.length < 2 ^ 64)
    (h : range.Exact bytes.length (range.intoAbsRange bytes.length).1
      (range.intoAbsRange bytes.length).2) :
    (StaticDir.serveRange fs path etag contentType bytes.length range).map Response.body =
      .ok (full (range.requestedBytes bytes)) := by
  rw [requestedBytes_eq h]
  obtain ⟨hordered, hin, -⟩ := h
  unfold StaticDir.serveRange
  generalize range.intoAbsRange bytes.length = r at *
  obtain ⟨start, stop⟩ := r
  dsimp only at hordered hin ⊢
  have hwrap : (stop + 2 ^ 64 - start + 1) % 2 ^ 64 = stop - start + 1 := by omega
  have hread' : readAt bytes start (stop - start + 1) =
      .ok ((bytes.drop start).take (stop - start + 1)) := if_pos (by omega)
  rw [hread, hwrap]
  simp only [Except.bind, Except.map, hread']

/-- **Range requests.** A range is served exactly, and the response reads exactly that,
if and only if it does not begin behind the file. -/
theorem range_served_exactly_iff (fs : FileSystem) (path : List Char) (etag contentType : String)
    (bytes : Bytes) (hread : fs.read path = .ok bytes) (hlen : bytes.length < 2 ^ 64)
    (rangeStr : List Char) (range : ByteRange)
    (hparse : parseRange rangeStr bytes.length = some range) :
    (range.Exact bytes.length (range.intoAbsRange bytes.length).1
        (range.intoAbsRange bytes.length).2 ∧
      (StaticDir.serveRange fs path etag contentType bytes.length range).map Response.body =
        .ok (full (range.requestedBytes bytes))) ↔
      range.Begins bytes.length := by
  have hexact := exact_iff (parseRange_ok hparse)
  constructor
  · intro h
    exact hexact.mp h.1
  · intro hbegins
    have h := hexact.mpr hbegins
    exact ⟨h, serveRange_of_exact hread hlen h⟩

/-- A file system of one file. -/
def oneFile (bytes : Bytes) : FileSystem :=
  ⟨some, fun _ => some ⟨true, bytes.length, some 0⟩, fun _ => .ok bytes,
    fun _ => .ok (full bytes)⟩

theorem range_served_exactly_iff_suffix :
    parseRange "bytes=-2".toList 3 = some (.suffix 2) ∧
      (StaticDir.serveRange (oneFile [7, 8, 9]) "/f".toList "" "" 3 (.suffix 2)).map
        Response.body = .ok (full [8, 9]) := by
  have hparse : parseRange "bytes=-2".toList 3 = some (.suffix 2) := by decide +kernel
  exact ⟨hparse, ((range_served_exactly_iff (oneFile [7, 8, 9]) "/f".toList "" "" [7, 8, 9] rfl
    (by decide) "bytes=-2".toList (.suffix 2) hparse).mpr trivial).2⟩

/-- Of a file of three bytes, the bytes five to nine are asked for. -/
theorem range_behind_end_served :
    ¬ ∀ rangeStr totalLen range, parseRange rangeStr totalLen = some range →
      range.Exact totalLen (range.intoAbsRange totalLen).1 (range.intoAbsRange totalLen).2 := by
  intro hall
  have h := hall "bytes=5-9".toList 3 (.startEnd 5 9) (by decide +kernel)
  have := ((h.requested 2).mp (by decide)).1.1
  contradiction

end JustApi.Core.StaticFiles
