import JobProvenance.Common.Attr

/-!
# The texts that are read as values

What the reader of stored values makes of any string. It finds the fields by the
separators it looks for, and passes over those it does not look at; whether the
time is a number and a binary value is base64 it does not see either.

* `StoredText`: a text by its fields, `Read` as far as the reader looks, and
  `Exact` where it does not;
* `Shape`: the strings there are, by where the reader stops with them;
* `parsesExactly_iff`: a string is accepted when it has the format and refused
  when it has not, exactly when it does not break off inside a field, its numbers
  fit an `int`, and a text the reader finds all fields of has the format.
-/

namespace JobProvenance

/-! ## The format -/

/-- A string in which every backslash has another byte behind it, and every colon a
    backslash in front. -/
inductive Escaped : Bytes → Prop
  | nil : Escaped []
  | plain {c : UInt8} {s : Bytes} : c ≠ ch ':' → c ≠ ch '\\' → Escaped s → Escaped (c :: s)
  | pair {c : UInt8} {s : Bytes} : Escaped s → Escaped (ch '\\' :: c :: s)

/-- Decimal digits, maybe behind a sign. -/
def IsDecimal (s : Bytes) : Prop :=
  ∃ sign ds, s = sign ++ ds ∧ (sign = [] ∨ sign = [ch '-'] ∨ sign = [ch '+']) ∧ ds ≠ [] ∧
    ∀ d ∈ ds, isDigit d = true

/-- A text by its fields, with the bytes that separate them where the reader does not
    look for a colon. -/
structure StoredText where
  kind : UInt8
  sep : UInt8
  time : Bytes
  letter : UInt8
  sep' : UInt8
  detail : Bytes
  payload : Bytes

namespace StoredText

/-- What stands in front of the time. -/
def IsKind (c : UInt8) : Prop := c = ch 'B' ∨ c = ch 'S'

/-- The text behind the time and its colon. -/
def rest (t : StoredText) : Bytes := t.letter :: t.sep' :: (t.detail ++ ch ':' :: t.payload)

/-- The text. -/
def bytes (t : StoredText) : Bytes := t.kind :: t.sep :: (t.time ++ ch ':' :: t.rest)

/-- The number of bytes in front of the payload. -/
def front (t : StoredText) : ℕ := t.time.length + 5 + t.detail.length + 1

/-- The fields are what the reader looks for. -/
structure Read (t : StoredText) : Prop where
  kind : IsKind t.kind
  time : ch ':' ∉ t.time
  letter : origOfChar t.letter ≠ none
  detail : Escaped t.detail

/-- What the reader does not look at is as the format has it. -/
structure Exact (b64 : Base64) (t : StoredText) : Prop where
  sep : t.sep = ch ':'
  time : IsDecimal t.time
  sep' : t.sep' = ch ':'
  payload : t.kind = ch 'B' → b64.decode t.payload t.payload.length ≠ none

end StoredText

open StoredText

/-- A string has the format of stored values. -/
def HasFormat (b64 : Base64) (str : Bytes) : Prop :=
  ∃ t : StoredText, t.bytes = str ∧ t.Read ∧ t.Exact b64

/-- A string is read without an error when it has the format, and refused when it has not. -/
def ParsesExactly (b64 : Base64) (str : Bytes) : Prop :=
  ∀ attr, (HasFormat b64 str → ∃ a, fbFromDb b64 str attr = .ok a) ∧
    (¬HasFormat b64 str → fbFromDb b64 str attr = .error (.errno .EINVAL))

/-- A string that ends behind its first letter, behind the letter of its origin, or
    behind a backslash of its origin detail. -/
inductive BreaksOff : Bytes → Prop
  | kind {k : UInt8} : IsKind k → BreaksOff [k]
  | letter {k sep l : UInt8} {time : Bytes} : IsKind k → ch ':' ∉ time → origOfChar l ≠ none →
    BreaksOff (k :: sep :: (time ++ [ch ':', l]))
  | detail {k sep l sep' : UInt8} {time detail : Bytes} : IsKind k → ch ':' ∉ time →
    origOfChar l ≠ none → Escaped detail →
    BreaksOff (k :: sep :: (time ++ ch ':' :: l :: sep' :: (detail ++ [ch '\\'])))

/-- A string of which a field begins, or the last one would, where no `int` counts. -/
inductive TooLong : Bytes → Prop
  | time {k sep : UInt8} {time rest : Bytes} : IsKind k → ch ':' ∉ time →
    2 ^ 31 ≤ time.length + 3 → TooLong (k :: sep :: (time ++ ch ':' :: rest))
  | detail {k sep l sep' : UInt8} {time detail : Bytes} : IsKind k → ch ':' ∉ time →
    origOfChar l ≠ none → Escaped detail → 2 ^ 31 ≤ time.length + 5 + detail.length →
    TooLong (k :: sep :: (time ++ ch ':' :: l :: sep' :: detail))
  | front {t : StoredText} : t.Read → 2 ^ 31 ≤ t.front → TooLong t.bytes

/-! ## The strings there are -/

/-- A string, by where the reader stops with it. -/
inductive Shape : Bytes → Prop
  | noKind {s : Bytes} : (∀ k ∈ s.head?, ¬IsKind k) → Shape s
  | kind {k : UInt8} : IsKind k → Shape [k]
  | noTime {k sep : UInt8} {rest : Bytes} : IsKind k → ch ':' ∉ rest → Shape (k :: sep :: rest)
  | noLetter {k sep : UInt8} {time rest : Bytes} : IsKind k → ch ':' ∉ time →
    (∀ l ∈ rest.head?, origOfChar l = none) → Shape (k :: sep :: (time ++ ch ':' :: rest))
  | letter {k sep l : UInt8} {time : Bytes} : IsKind k → ch ':' ∉ time → origOfChar l ≠ none →
    Shape (k :: sep :: (time ++ [ch ':', l]))
  | noPayload {k sep l sep' : UInt8} {time detail : Bytes} : IsKind k → ch ':' ∉ time →
    origOfChar l ≠ none → Escaped detail →
    Shape (k :: sep :: (time ++ ch ':' :: l :: sep' :: detail))
  | detail {k sep l sep' : UInt8} {time detail : Bytes} : IsKind k → ch ':' ∉ time →
    origOfChar l ≠ none → Escaped detail →
    Shape (k :: sep :: (time ++ ch ':' :: l :: sep' :: (detail ++ [ch '\\'])))
  | stored {t : StoredText} : t.Read → Shape t.bytes

section Shapes

variable {s d rest : Bytes} {c : UInt8}

/-- A string goes on escaped up to a colon, to a backslash at its end, or to its end. -/
theorem exists_escaped (s : Bytes) : ∃ d rest, Escaped d ∧ s = d ++ rest ∧
    (rest = [] ∨ rest = [ch '\\'] ∨ ∃ payload, rest = ch ':' :: payload) := by
  induction s using unescapeColon.induct with
  | case1 => exact ⟨[], [], .nil, rfl, .inl rfl⟩
  | case2 cs => exact ⟨[], _, .nil, rfl, .inr (.inr ⟨cs, rfl⟩)⟩
  | case3 => exact ⟨[], _, .nil, rfl, .inr (.inl rfl)⟩
  | case4 _ d ds ih =>
    obtain ⟨e, rest, he, rfl, hrest⟩ := ih
    exact ⟨_, rest, .pair he, rfl, hrest⟩
  | case5 c cs hc hb ih =>
    obtain ⟨e, rest, he, rfl, hrest⟩ := ih
    exact ⟨_, rest, .plain hc hb he, rfl, hrest⟩

/-- A string has a colon, or the parts in front of the first and behind it. -/
theorem exists_colon (s : Bytes) :
    ch ':' ∉ s ∨ ∃ time rest, ch ':' ∉ time ∧ s = time ++ ch ':' :: rest := by
  by_cases h : ch ':' ∈ s
  · obtain ⟨time, rest, rfl, hn⟩ := List.eq_append_cons_of_mem h
    exact .inr ⟨time, rest, hn, rfl⟩
  · exact .inl h

/-- Every string has a shape. -/
theorem shape_of (s : Bytes) : Shape s := by
  cases s with
  | nil => exact .noKind nofun
  | cons k s =>
    by_cases hk : IsKind k
    · cases s with
      | nil => exact .kind hk
      | cons sep s =>
        rcases exists_colon s with hs | ⟨time, rest, ht, rfl⟩
        · exact .noTime hk hs
        · cases rest with
          | nil => exact .noLetter hk ht nofun
          | cons l rest =>
            by_cases hl : origOfChar l = none
            · exact .noLetter hk ht fun l' hl' => Option.some.inj hl' ▸ hl
            · cases rest with
              | nil => exact .letter hk ht hl
              | cons sep' rest =>
                obtain ⟨d, tail, hd, rfl, rfl | rfl | ⟨payload, rfl⟩⟩ := exists_escaped rest
                · rw [List.append_nil]
                  exact .noPayload hk ht hl hd
                · exact .detail hk ht hl hd
                · exact .stored (t := ⟨k, sep, time, l, sep', d, payload⟩) ⟨hk, ht, hl, hd⟩
    · exact .noKind fun k' hk' => Option.some.inj hk' ▸ hk

/-- Unescaping reads all of an escaped string, up to what is behind it. -/
theorem unescapeColon_escaped_append (hd : Escaped d) :
    (∀ payload, ∃ out, unescapeColon (d ++ ch ':' :: payload) = .ok (out, d.length)) ∧
    (∃ out, unescapeColon d = .ok (out, d.length)) ∧
    unescapeColon (d ++ [ch '\\']) = .error .fault := by
  induction hd with
  | nil => exact ⟨fun payload => ⟨[], unescapeColon_colon payload⟩, ⟨[], rfl⟩, rfl⟩
  | @plain c s hc hb _ ih =>
    obtain ⟨hcolon, ⟨out, hend⟩, hbreak⟩ := ih
    refine ⟨fun payload => ?_, ⟨c :: out, ?_⟩, ?_⟩
    · obtain ⟨out, hout⟩ := hcolon payload
      refine ⟨c :: out, ?_⟩
      rw [List.cons_append, unescapeColon_plain hc hb, hout]
      rfl
    · rw [unescapeColon_plain hc hb, hend]
      rfl
    · rw [List.cons_append, unescapeColon_plain hc hb, hbreak]
      rfl
  | @pair c s _ ih =>
    obtain ⟨hcolon, ⟨out, hend⟩, hbreak⟩ := ih
    refine ⟨fun payload => ?_, ⟨c :: out, ?_⟩, ?_⟩
    · obtain ⟨out, hout⟩ := hcolon payload
      refine ⟨c :: out, ?_⟩
      rw [List.cons_append, List.cons_append, unescapeColon_escaped, hout]
      rfl
    · rw [unescapeColon_escaped, hend]
      rfl
    · rw [List.cons_append, List.cons_append, unescapeColon_escaped, hbreak]
      rfl

/-- The fields of a text are found in one way only. -/
theorem StoredText.bytes_injective {t t' : StoredText} (ht : t.Read) (ht' : t'.Read)
    (h : t.bytes = t'.bytes) : t = t' := by
  obtain ⟨hk, h⟩ := List.cons.inj h
  obtain ⟨hs, h⟩ := List.cons.inj h
  obtain ⟨htime, h⟩ := append_cons_inj ht.time ht'.time h
  obtain ⟨hl, h⟩ := List.cons.inj h
  obtain ⟨hs', h⟩ := List.cons.inj h
  -- unescaping ends at the same place
  obtain ⟨out, hout⟩ := (unescapeColon_escaped_append ht.detail).1 t.payload
  obtain ⟨out', hout'⟩ := (unescapeColon_escaped_append ht'.detail).1 t'.payload
  rw [h, hout'] at hout
  have hlen : t.detail.length = t'.detail.length := (congrArg Prod.snd (Except.ok.inj hout)).symm
  obtain ⟨hd, hp⟩ := List.append_inj h hlen
  cases t
  cases t'
  simp_all

end Shapes

/-! ## What the reader makes of them -/

section Outcomes

variable {b64 : Base64} {attr : Attrval} {k sep l sep' : UInt8} {s time rest detail : Bytes}
  {t : StoredText}

theorem StoredText.IsKind.not_ne (h : IsKind k) : ¬(k ≠ ch 'B' ∧ k ≠ ch 'S') :=
  fun hne => h.elim hne.1 hne.2

theorem fbFromDb_noKind (h : ∀ k ∈ s.head?, ¬IsKind k) :
    fbFromDb b64 s attr = .error (.errno .EINVAL) := by
  cases s with
  | nil => rfl
  | cons k s =>
    have hk : k ≠ ch 'B' ∧ k ≠ ch 'S' := not_or.1 (h k rfl)
    have hread : byteAt (k :: s) 0 = .ok k := rfl
    rw [fbFromDb, hread, Exec.ok_bind, if_pos hk]
    rfl

theorem fbFromDb_kind (hk : IsKind k) : fbFromDb b64 [k] attr = .error .fault := by
  have hread : byteAt [k] 0 = .ok k := rfl
  rw [fbFromDb, hread, Exec.ok_bind, if_neg hk.not_ne]
  rfl

theorem fbFromDb_noTime (hk : IsKind k) (h : ch ':' ∉ rest) :
    fbFromDb b64 (k :: sep :: rest) attr = .error (.errno .EINVAL) := by
  have hread : byteAt (k :: sep :: rest) 0 = .ok k := rfl
  have hfield : rest.takeWhile (· ≠ ch ':') = rest :=
    List.takeWhile_eq_self_iff.2 fun b hb => decide_eq_true fun hc => h (hc ▸ hb)
  have hlen : ¬(k :: sep :: rest).length < 2 := by simp
  rw [fbFromDb, hread, Exec.ok_bind, if_neg hk.not_ne]
  simp only [if_neg hlen, List.drop_succ_cons, List.drop_zero, hfield]
  rw [if_pos (by simp only [List.length_cons]; omega)]
  rfl

/-- What the reader does behind the time: `p` is where it is. -/
def readBehindTime (b64 : Base64) (str : Bytes) (attr : Attrval) (kind : UInt8) (time : Bytes)
    (p : ℕ) : Exec Attrval := do
  let letter ← byteAt str p
  match origOfChar letter with
  | none => throw (.errno .EINVAL)
  | some origin =>
    let p ← Exec.toInt (p + 2)
    let (originDetail, p) ← readDetail str p
    let sep ← byteAt str p
    if sep ≠ ch ':' then throw (.errno .EINVAL)
    let p ← Exec.toInt (p + 1)
    return readValue b64 str p
      { attr with binary := kind == ch 'B', origin, originDetail, timestamp := atol time }

theorem fbFromDb_time (hk : IsKind k) (ht : ch ':' ∉ time) :
    fbFromDb b64 (k :: sep :: (time ++ ch ':' :: rest)) attr =
      Exec.toInt (time.length + 3) >>=
        readBehindTime b64 (k :: sep :: (time ++ ch ':' :: rest)) attr k time := by
  have hread : byteAt (k :: sep :: (time ++ ch ':' :: rest)) 0 = .ok k := rfl
  have hall : ∀ b ∈ time, decide (b ≠ ch ':') = true :=
    fun b hb => decide_eq_true fun hc => ht (hc ▸ hb)
  have hfield : (time ++ ch ':' :: rest).takeWhile (· ≠ ch ':') = time := by
    rw [List.takeWhile_append_of_pos hall]
    simp
  have hlen : ¬(k :: sep :: (time ++ ch ':' :: rest)).length < 2 := by simp
  have hne : ¬2 + time.length = (k :: sep :: (time ++ ch ':' :: rest)).length := by
    simp only [List.length_cons, List.length_append]
    omega
  rw [fbFromDb, hread, Exec.ok_bind, if_neg hk.not_ne]
  simp only [if_neg hlen, List.drop_succ_cons, List.drop_zero, hfield, if_neg hne]
  rw [show 2 + time.length + 1 = time.length + 3 by omega]
  rfl

/-- A byte behind the time. -/
theorem byteAt_behindTime (i : ℕ) :
    byteAt (k :: sep :: (time ++ ch ':' :: rest)) (time.length + 3 + i) = byteAt rest i := by
  rw [byteAt_drop]
  · congr 1
    rw [show time.length + 3 = 2 + (time.length + 1) by omega, ← List.drop_drop]
    simp only [List.drop_succ_cons, List.drop_zero]
    rw [← List.drop_drop, List.drop_left' rfl]
    rfl
  · simp only [List.length_cons, List.length_append]
    omega

theorem fbFromDb_noLetter (hk : IsKind k) (ht : ch ':' ∉ time)
    (h : ∀ l ∈ rest.head?, origOfChar l = none) :
    fbFromDb b64 (k :: sep :: (time ++ ch ':' :: rest)) attr =
      if time.length + 3 < 2 ^ 31 then .error (.errno .EINVAL) else .error .fault := by
  obtain ⟨l, hl, hnone⟩ : ∃ l, byteAt rest 0 = .ok l ∧ origOfChar l = none := by
    cases rest with
    | nil => exact ⟨0, rfl, by decide⟩
    | cons l rest => exact ⟨l, rfl, h l rfl⟩
  rw [fbFromDb_time hk ht, Exec.toInt]
  split_ifs
  · rw [Exec.ok_bind, readBehindTime, ← Nat.add_zero (time.length + 3), byteAt_behindTime, hl,
      Exec.ok_bind, hnone]
    rfl
  · rfl

/-- With the letter of the origin the reader goes on two bytes behind it. -/
theorem fbFromDb_letter (hk : IsKind k) (ht : ch ':' ∉ time) (hl : origOfChar l ≠ none) :
    ∃ origin, fbFromDb b64 (k :: sep :: (time ++ ch ':' :: l :: rest)) attr =
      (do
        let p ← Exec.toInt (time.length + 5)
        let (originDetail, p) ← readDetail (k :: sep :: (time ++ ch ':' :: l :: rest)) p
        let sep' ← byteAt (k :: sep :: (time ++ ch ':' :: l :: rest)) p
        if sep' ≠ ch ':' then throw (.errno .EINVAL)
        let p ← Exec.toInt (p + 1)
        return readValue b64 (k :: sep :: (time ++ ch ':' :: l :: rest)) p
          { attr with binary := k == ch 'B', origin, originDetail, timestamp := atol time }) := by
  obtain ⟨origin, ho⟩ := Option.ne_none_iff_exists'.1 hl
  refine ⟨origin, ?_⟩
  have hbyte : byteAt (k :: sep :: (time ++ ch ':' :: l :: rest)) (time.length + 3) = .ok l := by
    rw [← Nat.add_zero (time.length + 3), byteAt_behindTime]
    rfl
  rw [fbFromDb_time hk ht]
  by_cases h : time.length + 3 < 2 ^ 31
  · rw [Exec.toInt_of_lt h, Exec.ok_bind, readBehindTime, hbyte, Exec.ok_bind, ho]
  · rw [Exec.toInt_of_le (by omega), Exec.toInt_of_le (by omega)]
    rfl

theorem fbFromDb_onlyLetter (hk : IsKind k) (ht : ch ':' ∉ time) (hl : origOfChar l ≠ none) :
    fbFromDb b64 (k :: sep :: (time ++ [ch ':', l])) attr = .error .fault := by
  obtain ⟨origin, h⟩ := @fbFromDb_letter b64 attr k sep l time [] hk ht hl
  rw [h]
  by_cases hlt : time.length + 5 < 2 ^ 31
  · have hout : byteAt (k :: sep :: (time ++ [ch ':', l])) (time.length + 5) = .error .fault := by
      rw [show time.length + 5 = time.length + 3 + 2 from rfl, byteAt_behindTime]
      rfl
    rw [Exec.toInt_of_lt hlt, Exec.ok_bind, readDetail, hout]
    rfl
  · rw [Exec.toInt_of_le (by omega)]
    rfl

/-- Reading an escaped origin detail, up to what is behind it. -/
theorem readDetail_escaped {str d tail : Bytes} {p : ℕ} (hd : Escaped d)
    (htail : tail = [] ∨ ∃ payload, tail = ch ':' :: payload) (hp : str.drop p = d ++ tail)
    (hps : p ≤ str.length) (hlt : p < 2 ^ 31) :
    if p + d.length < 2 ^ 31 then ∃ od, readDetail str p = .ok (od, p + d.length)
    else readDetail str p = .error .fault := by
  obtain ⟨hcolon, hend, -⟩ := unescapeColon_escaped_append hd
  obtain ⟨out, hout⟩ : ∃ out, unescapeColon (d ++ tail) = .ok (out, d.length) := by
    rcases htail with rfl | ⟨payload, rfl⟩
    · rwa [List.append_nil]
    · exact hcolon payload
  have hfirst : byteAt str p = byteAt (d ++ tail) 0 := by rw [← hp, ← byteAt_drop hps, Nat.add_zero]
  -- unless the first byte is the colon behind an empty detail, the text is unescaped
  have hread : ∀ c, byteAt (d ++ tail) 0 = .ok c → c ≠ ch ':' →
      readDetail str p = Exec.toInt (p + d.length) >>= fun p => .ok (some out, p) := by
    intro c hc hne
    rw [readDetail, hfirst, hc, Exec.ok_bind, if_neg hne, hp, hout]
    rfl
  have hgoal : (∃ c, byteAt (d ++ tail) 0 = .ok c ∧ c ≠ ch ':') →
      if p + d.length < 2 ^ 31 then ∃ od, readDetail str p = .ok (od, p + d.length)
      else readDetail str p = .error .fault := by
    rintro ⟨c, hc, hne⟩
    rw [hread c hc hne, Exec.toInt]
    split_ifs
    · exact ⟨some out, rfl⟩
    · rfl
  cases hd with
  | nil =>
    rcases htail with rfl | ⟨payload, rfl⟩
    · exact hgoal ⟨0, rfl, by decide⟩
    · have hc : byteAt ([] ++ ch ':' :: payload) 0 = .ok (ch ':') := rfl
      rw [List.length_nil, Nat.add_zero, if_pos hlt, readDetail, hfirst, hc, Exec.ok_bind, if_pos rfl]
      exact ⟨none, rfl⟩
  | plain hc => exact hgoal ⟨_, rfl, hc⟩
  | pair => exact hgoal ⟨ch '\\', rfl, by decide⟩

theorem readDetail_broken {str d : Bytes} {p : ℕ} (hd : Escaped d)
    (hp : str.drop p = d ++ [ch '\\']) (hps : p ≤ str.length) :
    readDetail str p = .error .fault := by
  have hfirst : byteAt str p = byteAt (d ++ [ch '\\']) 0 := by
    rw [← hp, ← byteAt_drop hps, Nat.add_zero]
  obtain ⟨c, hc, hne⟩ : ∃ c, byteAt (d ++ [ch '\\']) 0 = .ok c ∧ c ≠ ch ':' := by
    cases hd with
    | nil => exact ⟨_, rfl, by decide⟩
    | plain hc => exact ⟨_, rfl, hc⟩
    | pair => exact ⟨ch '\\', rfl, by decide⟩
  rw [readDetail, hfirst, hc, Exec.ok_bind, if_neg hne, hp, (unescapeColon_escaped_append hd).2.2]
  rfl

/-- What is behind the letter of the origin and the byte that follows it. -/
theorem drop_behindLetter :
    (k :: sep :: (time ++ ch ':' :: l :: sep' :: rest)).drop (time.length + 5) = rest := by
  rw [show time.length + 5 = 2 + (time.length + 3) by omega, ← List.drop_drop]
  simp only [List.drop_succ_cons, List.drop_zero]
  rw [← List.drop_drop, List.drop_left' rfl]
  rfl

theorem le_length_behindLetter :
    time.length + 5 ≤ (k :: sep :: (time ++ ch ':' :: l :: sep' :: rest)).length := by
  simp only [List.length_cons, List.length_append]
  omega

theorem fbFromDb_detail (hk : IsKind k) (ht : ch ':' ∉ time) (hl : origOfChar l ≠ none)
    (hd : Escaped detail) :
    fbFromDb b64 (k :: sep :: (time ++ ch ':' :: l :: sep' :: (detail ++ [ch '\\']))) attr =
      .error .fault := by
  obtain ⟨origin, h⟩ :=
    @fbFromDb_letter b64 attr k sep l time (sep' :: (detail ++ [ch '\\'])) hk ht hl
  rw [h]
  by_cases hlt : time.length + 5 < 2 ^ 31
  · rw [Exec.toInt_of_lt hlt, Exec.ok_bind,
      readDetail_broken hd drop_behindLetter le_length_behindLetter]
    rfl
  · rw [Exec.toInt_of_le (by omega)]
    rfl

theorem fbFromDb_noPayload (hk : IsKind k) (ht : ch ':' ∉ time) (hl : origOfChar l ≠ none)
    (hd : Escaped detail) :
    fbFromDb b64 (k :: sep :: (time ++ ch ':' :: l :: sep' :: detail)) attr =
      if time.length + 5 + detail.length < 2 ^ 31 then .error (.errno .EINVAL)
      else .error .fault := by
  obtain ⟨origin, h⟩ := @fbFromDb_letter b64 attr k sep l time (sep' :: detail) hk ht hl
  rw [h]
  by_cases hlt : time.length + 5 < 2 ^ 31
  · have hread := readDetail_escaped hd (.inl rfl)
      ((@drop_behindLetter k sep l sep' time detail).trans (List.append_nil _).symm)
      le_length_behindLetter hlt
    rw [Exec.toInt_of_lt hlt, Exec.ok_bind]
    split_ifs at hread ⊢
    · obtain ⟨od, hread⟩ := hread
      -- the detail is the end of the string
      have hend : byteAt (k :: sep :: (time ++ ch ':' :: l :: sep' :: detail))
          (time.length + 5 + detail.length) = .ok 0 := by
        rw [byteAt_drop le_length_behindLetter, drop_behindLetter]
        simp [byteAt]
      rw [hread, Exec.ok_bind]
      simp only [hend, Exec.ok_bind]
      rfl
    · rw [hread]
      rfl
  · rw [Exec.toInt_of_le (by omega), if_neg (by omega)]
    rfl

/-- A text that has all fields is accepted, whatever else is in it. -/
theorem fbFromDb_stored (ht : t.Read) :
    if t.front < 2 ^ 31 then ∃ a, fbFromDb b64 t.bytes attr = .ok a
    else fbFromDb b64 t.bytes attr = .error .fault := by
  obtain ⟨origin, h⟩ := @fbFromDb_letter b64 attr t.kind t.sep t.letter t.time
    (t.sep' :: (t.detail ++ ch ':' :: t.payload)) ht.kind ht.time ht.letter
  rw [StoredText.bytes, StoredText.rest, StoredText.front, h]
  by_cases hlt : t.time.length + 5 < 2 ^ 31
  · have hread := readDetail_escaped ht.detail (.inr ⟨t.payload, rfl⟩)
      (@drop_behindLetter t.kind t.sep t.letter t.sep' t.time (t.detail ++ ch ':' :: t.payload))
      le_length_behindLetter hlt
    rw [Exec.toInt_of_lt hlt, Exec.ok_bind]
    by_cases hd : t.time.length + 5 + t.detail.length < 2 ^ 31
    · rw [if_pos hd] at hread
      obtain ⟨od, hread⟩ := hread
      have hcolon : byteAt
          (t.kind :: t.sep :: (t.time ++ ch ':' :: t.letter :: t.sep' ::
            (t.detail ++ ch ':' :: t.payload)))
          (t.time.length + 5 + t.detail.length) = .ok (ch ':') := by
        rw [byteAt_drop le_length_behindLetter, drop_behindLetter, byteAt_append]
      rw [hread, Exec.ok_bind]
      simp only [hcolon, Exec.ok_bind, ne_eq, not_true_eq_false, if_false]
      split_ifs with hp
      · simp only [Exec.toInt_of_lt hp]
        exact ⟨_, rfl⟩
      · simp only [Exec.toInt_of_le (not_lt.1 hp)]
        rfl
    · rw [if_neg hd] at hread
      rw [if_neg (by omega), hread]
      rfl
  · rw [Exec.toInt_of_le (by omega), if_neg (by omega)]
    rfl

/-- A string that breaks off is read behind its terminator. -/
theorem fbFromDb_of_breaksOff (h : BreaksOff s) : fbFromDb b64 s attr = .error .fault := by
  cases h with
  | kind hk => exact fbFromDb_kind hk
  | letter hk ht hl => exact fbFromDb_onlyLetter hk ht hl
  | detail hk ht hl hd => exact fbFromDb_detail hk ht hl hd

theorem fbFromDb_of_tooLong (h : TooLong s) : fbFromDb b64 s attr = .error .fault := by
  cases h with
  | time hk ht hlen =>
    rw [fbFromDb_time hk ht, Exec.toInt_of_le hlen]
    rfl
  | detail hk ht hl hd hlen => rw [fbFromDb_noPayload hk ht hl hd, if_neg (by omega)]
  | front ht hlen =>
    have h := @fbFromDb_stored b64 attr _ ht
    rwa [if_neg (by omega)] at h

/-- A string is accepted as a text with all its fields, refused, or read where it
    is not. -/
theorem fbFromDb_cases (b64 : Base64) (s : Bytes) (attr : Attrval) :
    (∃ t : StoredText, t.bytes = s ∧ t.Read ∧ ∃ a, fbFromDb b64 s attr = .ok a) ∨
    fbFromDb b64 s attr = .error (.errno .EINVAL) ∨
    (fbFromDb b64 s attr = .error .fault ∧ (BreaksOff s ∨ TooLong s)) := by
  cases shape_of s with
  | noKind h => exact .inr (.inl (fbFromDb_noKind h))
  | kind hk => exact .inr (.inr ⟨fbFromDb_kind hk, .inl (.kind hk)⟩)
  | noTime hk hs => exact .inr (.inl (fbFromDb_noTime hk hs))
  | noLetter hk ht hl =>
    rw [fbFromDb_noLetter hk ht hl]
    split_ifs with hlen
    · exact .inr (.inl rfl)
    · exact .inr (.inr ⟨rfl, .inr (.time hk ht (not_lt.1 hlen))⟩)
  | letter hk ht hl => exact .inr (.inr ⟨fbFromDb_onlyLetter hk ht hl, .inl (.letter hk ht hl)⟩)
  | noPayload hk ht hl hd =>
    rw [fbFromDb_noPayload hk ht hl hd]
    split_ifs with hlen
    · exact .inr (.inl rfl)
    · exact .inr (.inr ⟨rfl, .inr (.detail hk ht hl hd (not_lt.1 hlen))⟩)
  | detail hk ht hl hd =>
    exact .inr (.inr ⟨fbFromDb_detail hk ht hl hd, .inl (.detail hk ht hl hd)⟩)
  | @stored t ht =>
    have h := @fbFromDb_stored b64 attr t ht
    split_ifs at h with hlen
    · exact .inl ⟨t, rfl, ht, h⟩
    · exact .inr (.inr ⟨h, .inr (.front ht (not_lt.1 hlen))⟩)

theorem fbFromDb_of_read (ht : t.Read) (hlong : ¬TooLong t.bytes) :
    ∃ a, fbFromDb b64 t.bytes attr = .ok a := by
  have h := @fbFromDb_stored b64 attr t ht
  rwa [if_pos (not_le.1 fun hlen => hlong (.front ht hlen))] at h

end Outcomes

/-! ## When a string is read as the format says -/

/-- A string neither breaks off nor has a field where no `int` counts, and when the
    reader finds all of its fields the rest is as the format has it, too. -/
structure ReadsExactly (b64 : Base64) (s : Bytes) : Prop where
  whole : ¬BreaksOff s
  short : ¬TooLong s
  fields : ∀ t : StoredText, t.bytes = s → t.Read → t.Exact b64

/-- A text is read, so it must be as the format has it. -/
theorem exact_of_parsesExactly {b64 : Base64} {t : StoredText} (h : ParsesExactly b64 t.bytes)
    (ht : t.Read) (hlong : ¬TooLong t.bytes) : t.Exact b64 := by
  obtain ⟨a, ha⟩ := @fbFromDb_of_read b64 (stringValue 0) t ht hlong
  by_contra hnot
  have hno : ¬HasFormat b64 t.bytes := by
    rintro ⟨t', hbytes, ht', hexact⟩
    rw [StoredText.bytes_injective ht' ht hbytes] at hexact
    exact hnot hexact
  rw [(h (stringValue 0)).2 hno] at ha
  cases ha

/-- The strings that are accepted when they have the format, and refused when they
    have not, without being read behind their terminators. -/
theorem parsesExactly_iff (b64 : Base64) (s : Bytes) : ParsesExactly b64 s ↔ ReadsExactly b64 s := by
  constructor
  · intro h
    have hfault : ∀ attr, fbFromDb b64 s attr ≠ .error .fault := by
      intro attr hf
      by_cases hs : HasFormat b64 s
      · obtain ⟨a, ha⟩ := (h attr).1 hs
        rw [hf] at ha
        cases ha
      · have he := (h attr).2 hs
        rw [hf] at he
        cases he
    have hlong : ¬TooLong s := fun hl => hfault (stringValue 0) (fbFromDb_of_tooLong hl)
    refine ⟨fun hb => hfault (stringValue 0) (fbFromDb_of_breaksOff hb), hlong, ?_⟩
    rintro t rfl ht
    exact exact_of_parsesExactly h ht hlong
  · rintro ⟨hwhole, hshort, hfields⟩ attr
    constructor
    · rintro ⟨t, rfl, ht, -⟩
      exact fbFromDb_of_read ht hshort
    · intro hno
      rcases fbFromDb_cases b64 s attr with ⟨t, ht, hread, -⟩ | he | ⟨-, hb | hl⟩
      · exact absurd ⟨t, ht, hread, hfields t ht hread⟩ hno
      · exact he
      · exact absurd hb hwhole
      · exact absurd hl hshort

/-- A binary value whose payload is not base64. -/
def brokenPayload : StoredText := ⟨ch 'B', ch ':', ascii "1", ch 'A', ch ':', [], ascii "*"⟩

/-- It is accepted: the decoder's error is looked for in a size, which has no sign. -/
theorem not_parsesExactly_brokenPayload :
    ¬ParsesExactly Base64.standard brokenPayload.bytes := by
  intro h
  have hread : brokenPayload.Read := ⟨.inl rfl, by decide, by decide, .nil⟩
  obtain ⟨a, ha⟩ : ∃ a, fbFromDb Base64.standard brokenPayload.bytes (stringValue 0) = .ok a :=
    ⟨_, rfl⟩
  have hlong : ¬TooLong brokenPayload.bytes := by
    intro hl
    rw [fbFromDb_of_tooLong hl] at ha
    cases ha
  exact (exact_of_parsesExactly h hread hlong).payload rfl rfl

end JobProvenance
