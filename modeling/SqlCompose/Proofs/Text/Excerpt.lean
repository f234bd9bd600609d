import SqlCompose.Clause.Basic

/-!
A text that is cut to a number of bytes: what is kept is the longest beginning of whole characters
that fits.
-/
namespace SqlCompose

namespace Text

variable {s p : String} {n : Nat}

/-- The longest beginning of a text that is made of whole characters and fits a number of bytes. -/
structure LongestPrefix (n : Nat) (s p : String) : Prop where
  isPrefix : p.toList <+: s.toList
  fits : p.utf8ByteSize ≤ n
  longest : ∀ q : String, q.toList <+: s.toList → q.utf8ByteSize ≤ n → q.toList <+: p.toList

theorem byteIdx_of_boundaryAt? {stop : s.Pos} (h : boundaryAt? s n = some stop) :
    stop.offset.byteIdx = n := by
  rw [boundaryAt?] at h
  split at h
  · cases h
    rfl
  · cases h

theorem not_isValid_of_boundaryAt? (h : boundaryAt? s n = none) :
    ¬ (String.Pos.Raw.mk n).IsValid s := by
  intro hvalid
  rw [boundaryAt?, dif_pos (String.Pos.Raw.isValid_eq_true_iff.mpr hvalid)] at h
  cases h

/-- The search ends at the last place between characters that is not behind the one where it begins. -/
theorem boundaryFrom?_spec {stop : s.Pos} (h : boundaryFrom? s n = some stop) :
    stop.offset.byteIdx ≤ n ∧
      ∀ k, k ≤ n → (String.Pos.Raw.mk k).IsValid s → k ≤ stop.offset.byteIdx := by
  induction n with
  | zero =>
    have hstop := byteIdx_of_boundaryAt? h
    exact ⟨by omega, fun k hk _ => by omega⟩
  | succ n ih =>
    rcases Option.or_eq_some_iff.mp h with hhere | ⟨hnothere, hbefore⟩
    · have hstop := byteIdx_of_boundaryAt? hhere
      exact ⟨by omega, fun k hk _ => by omega⟩
    · obtain ⟨hle, hlast⟩ := ih hbefore
      refine ⟨by omega, fun k hk hvalid => ?_⟩
      have hne : k ≠ n + 1 := by
        rintro rfl
        exact not_isValid_of_boundaryAt? hnothere hvalid
      exact hlast k (by omega) hvalid

theorem exists_append_of_isPrefix (h : p.toList <+: s.toList) : ∃ t, s = p ++ t := by
  obtain ⟨cs, hcs⟩ := h
  refine ⟨.ofList cs, String.toList_inj.mp ?_⟩
  rw [String.toList_append, String.toList_ofList, hcs]

theorem utf8ByteSize_sliceTo (stop : s.Pos) :
    (s.sliceTo stop).copy.utf8ByteSize = stop.offset.byteIdx := by
  rw [stop.splits.offset_eq_rawEndPos]
  rfl

/-- The characters in front of the place where the search ends are the longest beginning that fits. -/
theorem longestPrefix_sliceTo {stop : s.Pos}
    (h : boundaryFrom? s (Nat.min n s.utf8ByteSize) = some stop) :
    LongestPrefix n s (s.sliceTo stop).copy := by
  obtain ⟨hle, hlast⟩ := boundaryFrom?_spec h
  have hsplit : s = (s.sliceTo stop).copy ++ (s.sliceFrom stop).copy := stop.splits.eq_append
  refine ⟨⟨(s.sliceFrom stop).copy.toList, ?_⟩, ?_, fun q hq hfits => ?_⟩
  · rw [← String.toList_append, ← hsplit]
  · rw [utf8ByteSize_sliceTo]
    exact Nat.le_trans hle (Nat.min_le_left _ _)
  · obtain ⟨t, ht⟩ := exists_append_of_isPrefix hq
    have hsize : q.utf8ByteSize ≤ s.utf8ByteSize := by
      rw [ht, String.utf8ByteSize_append]
      exact Nat.le_add_right _ _
    have hbefore : q.utf8ByteSize ≤ stop.offset.byteIdx :=
      hlast q.utf8ByteSize (Nat.le_min.mpr ⟨hfits, hsize⟩)
        (String.Pos.Raw.isValid_iff_exists_append.mpr ⟨q, t, ht, rfl⟩)
    obtain ⟨u, hu, -⟩ :=
      ((String.Pos.splits_ofEqAppend ht).le_iff_exists_eq_append stop.splits).mp hbefore
    exact ⟨u.toList, by rw [hu, String.toList_append]⟩

theorem takeBytes_spec (n : Nat) (s : String) :
    ∃ stop : s.Pos, boundaryFrom? s (Nat.min n s.utf8ByteSize) = some stop ∧
      takeBytes n s = (s.sliceTo stop).copy :=
  ⟨_, (Option.some_get _).symm, rfl⟩

theorem longestPrefix_takeBytes (n : Nat) (s : String) : LongestPrefix n s (takeBytes n s) := by
  obtain ⟨stop, hstop, htake⟩ := takeBytes_spec n s
  rw [htake]
  exact longestPrefix_sliceTo hstop

example : takeBytes 2 "héllo" = "h" := by decide +kernel

/-- The character behind what is kept does not fit any more. -/
theorem LongestPrefix.lt_add_utf8Size (h : LongestPrefix n s p) {ch : Char} {cs : List Char}
    (hs : s.toList = p.toList ++ ch :: cs) : n < p.utf8ByteSize + ch.utf8Size := by
  refine Nat.lt_of_not_le fun hfits => ?_
  have hnext : (p.push ch).toList <+: s.toList :=
    ⟨cs, by rw [String.toList_push, List.append_assoc, List.singleton_append, hs]⟩
  have hlonger := (h.longest (p.push ch) hnext (by rwa [String.utf8ByteSize_push])).length_le
  rw [String.toList_push, List.length_append, List.length_singleton] at hlonger
  omega

theorem LongestPrefix.le_add_three (h : LongestPrefix n s p) (hn : n ≤ s.utf8ByteSize) :
    n ≤ p.utf8ByteSize + 3 := by
  obtain ⟨rest, hrest⟩ := h.isPrefix
  cases rest with
  | nil =>
    rw [List.append_nil] at hrest
    rw [String.toList_inj.mp hrest]
    exact Nat.le_add_right_of_le hn
  | cons ch cs =>
    have hnext := h.lt_add_utf8Size hrest.symm
    have hchar := ch.utf8Size_le_four
    omega

/-- Nothing is kept exactly if the first character does not fit. -/
theorem LongestPrefix.eq_empty_iff (h : LongestPrefix n s p) :
    p = "" ↔ ∀ ch cs, s.toList = ch :: cs → n < ch.utf8Size := by
  constructor
  · rintro rfl ch cs hs
    have hnext : n < "".utf8ByteSize + ch.utf8Size := h.lt_add_utf8Size hs
    rwa [String.utf8ByteSize_empty, Nat.zero_add] at hnext
  · intro hfirst
    obtain ⟨rest, hrest⟩ := h.isPrefix
    cases hp : p.toList with
    | nil => exact String.toList_eq_nil_iff.mp hp
    | cons ch cs =>
      have hlt : n < ch.utf8Size := hfirst ch (cs ++ rest) (by rw [← hrest, hp, List.cons_append])
      have hsize : p.utf8ByteSize = ch.utf8Size + (String.ofList cs).utf8ByteSize := by
        rw [← String.ofList_toList (s := p), hp, String.ofList_cons, String.utf8ByteSize_append,
          String.utf8ByteSize_singleton]
      have hfits := h.fits
      omega

end Text

namespace Trace

variable {t : Trace} {n : Nat} {sql : String}

theorem excerpt_of_none (hmax : t.maxBytes = none) : t.excerpt sql = sql := by
  rw [excerpt, hmax]

theorem excerpt_of_le (hmax : t.maxBytes = some n) (hshort : sql.utf8ByteSize ≤ n) :
    t.excerpt sql = sql := by
  rw [excerpt, hmax]
  exact if_pos hshort

theorem excerpt_of_lt (hmax : t.maxBytes = some n) (hlong : n < sql.utf8ByteSize) :
    t.excerpt sql = Text.takeBytes n sql ++ "..." := by
  rw [excerpt, hmax]
  exact if_neg (Nat.not_le.mpr hlong)

/-- The text of a clause is reported whole if it fits the limit or none is set, and else as the longest
beginning of whole characters that fits, with three dots behind it. The search for the end of that
beginning finds a place between two characters for every text and every limit. -/
theorem emit_longest_prefix :
    (∀ (t : Trace) (tag : String) (c : Clause), ∃ sql,
      (t.emit tag c).events = [.rendered t.level tag c.paramCount sql] ∧
      (t.maxBytes = none → sql = c.sql) ∧
      ∀ n, t.maxBytes = some n →
        (c.sql.utf8ByteSize ≤ n → sql = c.sql) ∧
        (n < c.sql.utf8ByteSize → ∃ p, sql = p ++ "..." ∧ Text.LongestPrefix n c.sql p ∧
          n ≤ p.utf8ByteSize + 3 ∧
          (p = "" ↔ ∀ ch cs, c.sql.toList = ch :: cs → n < ch.utf8Size))) ∧
    ∀ (s : String) (n : Nat), ∃ stop : s.Pos,
      Text.boundaryFrom? s (Nat.min n s.utf8ByteSize) = some stop ∧
      Text.takeBytes n s = (s.sliceTo stop).copy ∧
      Text.LongestPrefix n s (Text.takeBytes n s) := by
  constructor
  · intro t tag c
    refine ⟨t.excerpt c.sql, rfl, excerpt_of_none, fun n hmax => ⟨excerpt_of_le hmax, ?_⟩⟩
    intro hlong
    have hkept : Text.LongestPrefix n c.sql (Text.takeBytes n c.sql) :=
      Text.longestPrefix_takeBytes n c.sql
    exact ⟨Text.takeBytes n c.sql, excerpt_of_lt hmax hlong, hkept,
      hkept.le_add_three (Nat.le_of_lt hlong), hkept.eq_empty_iff⟩
  · intro s n
    obtain ⟨stop, hstop, htake⟩ := Text.takeBytes_spec n s
    exact ⟨stop, hstop, htake, Text.longestPrefix_takeBytes n s⟩

/-- The limit falls into a character of two bytes, which is left out. -/
theorem emit_longest_prefix_accented :
    let t : Trace := { maxBytes := some 9 }
    let c := Clause.ofText "name = 'é'"
    t.maxBytes = some 9 ∧ 9 < c.sql.utf8ByteSize ∧
      ∃ p, (t.emit "people" c).events = [.rendered .debug "people" 0 (p ++ "...")] ∧
        Text.LongestPrefix 9 c.sql p ∧ 9 ≤ p.utf8ByteSize + 3 := by
  intro t c
  have hlong : 9 < c.sql.utf8ByteSize := by decide +kernel
  obtain ⟨sql, hevents, -, hcut⟩ := emit_longest_prefix.1 t "people" c
  obtain ⟨p, rfl, hp, hthree, -⟩ := (hcut 9 rfl).2 hlong
  exact ⟨rfl, hlong, p, hevents, hp, hthree⟩

end Trace

end SqlCompose
