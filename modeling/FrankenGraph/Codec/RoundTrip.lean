import FrankenGraph.Codec.MatchTables

/-!
# Blocks round-trip

The invariant of the compressor's loop is about its output: decoding it gives exactly the input up to
`literalStart`. Every token keeps it, for every stream the token may stand in (`Written.token`).

Results:

* `decodeLoop_total`: for any bytes the decoder ends, never leaves its slices, and what it returns
  has the expected length.
* `compressLoop_written`: the loop ends, its bytes decode to the input and stay within the bound.
* `block_compression`: both ends together, with either match table.
-/

namespace FrankenGraph.Codec

open List Option Function

/-! ## Any bytes -/

variable {input : List UInt8}

theorem slice_some {start stop : ℕ} (hstart : start ≤ stop)
    (hstop : stop ≤ input.length) : slice input start stop = some ((input.take stop).drop start) :=
  if_pos ⟨hstart, hstop⟩

variable {expected : ℕ}

theorem checkedDecodedEnd_ok {produced additional tokenOffset outputEnd : ℕ}
    (h : checkedDecodedEnd produced additional expected tokenOffset = .ok outputEnd) :
    outputEnd = produced + additional ∧ outputEnd ≤ expected := by
  unfold checkedDecodedEnd at h
  split at h
  · cases h
  · split at h
    · cases h
    · cases h
      omega

theorem checkedDecodedEnd_fits {produced additional : ℕ} (tokenOffset : ℕ)
    (hle : produced + additional ≤ expected) (hmax : expected ≤ usizeMax) :
    checkedDecodedEnd produced additional expected tokenOffset = .ok (produced + additional) := by
  unfold checkedDecodedEnd
  rw [if_neg (by omega), if_neg (by omega)]

variable {distance : ℕ}

/-- A copy from inside the output never reads before its start. -/
theorem copyBack_length (hpos : 0 < distance) (count : ℕ) :
    ∀ output : List UInt8, distance ≤ output.length →
      ∃ output', copyBack distance count output = some output' ∧
        output'.length = output.length + count := by
  induction count with
  | zero => exact fun output _ => ⟨output, rfl, rfl⟩
  | succ count ih =>
    intro output hle
    have hget : output[output.length - distance]? = some output[output.length - distance] :=
      getElem?_eq_getElem (by omega)
    obtain ⟨output', hcopy, hlength⟩ :=
      ih (output ++ [output[output.length - distance]]) (by simp; omega)
    refine ⟨output', ?_, by simp at hlength; omega⟩
    rw [copyBack, if_neg (by omega), hget]
    exact hcopy

/-- A token is refused, or it moves the cursor inside the input and adds bytes to the output. -/
theorem decodeToken_total (input : List UInt8) (expected cursor : ℕ) (output : List UInt8) :
    ∃ result, decodeToken input expected cursor output = some result ∧
      ∀ cursor' output', result = .ok (cursor', output') →
        cursor' ≤ input.length ∧ output.length < output'.length ∧ output'.length ≤ expected := by
  unfold decodeToken
  cases hget : input[cursor]? with
  | none => exact ⟨_, rfl, fun _ _ h => nomatch h⟩
  | some tag =>
    have hcursor : cursor < input.length := (List.getElem?_eq_some_iff.mp hget).1
    by_cases hliteral : tag &&& 0x80 = 0
    · simp only [if_pos hliteral]
      by_cases hshort : input.length - (cursor + 1) < tag.toNat + 1
      · rw [if_pos hshort]
        exact ⟨_, rfl, fun _ _ h => nomatch h⟩
      · rw [if_neg hshort]
        cases hend : checkedDecodedEnd output.length (tag.toNat + 1) expected cursor with
        | error error => exact ⟨_, rfl, fun _ _ h => nomatch h⟩
        | ok outputEnd =>
          obtain ⟨hsum, hle⟩ := checkedDecodedEnd_ok hend
          have hslice : slice input (cursor + 1) (cursor + 1 + (tag.toNat + 1)) = _ :=
            slice_some (by omega) (by omega)
          simp only [hslice, Option.bind_eq_bind, Option.bind_some]
          refine ⟨_, rfl, fun cursor' output' h => ?_⟩
          cases h
          simp only [List.length_append, List.length_drop, List.length_take]
          omega
    · simp only [if_neg hliteral]
      by_cases hshort : input.length - (cursor + 1) < 2
      · rw [if_pos hshort]
        exact ⟨_, rfl, fun _ _ h => nomatch h⟩
      · rw [if_neg hshort]
        have hlow : input[cursor + 1]? = some input[cursor + 1] :=
          List.getElem?_eq_getElem (by omega)
        have hhigh : input[cursor + 2]? = some input[cursor + 2] :=
          List.getElem?_eq_getElem (by omega)
        simp only [hlow, hhigh, Option.bind_eq_bind, Option.bind_some]
        generalize input[cursor + 1].toNat + 256 * input[cursor + 2].toNat = distance
        by_cases hzero : distance = 0
        · rw [if_pos hzero]
          exact ⟨_, rfl, fun _ _ h => nomatch h⟩
        rw [if_neg hzero]
        by_cases hfar : output.length < distance
        · rw [if_pos hfar]
          exact ⟨_, rfl, fun _ _ h => nomatch h⟩
        rw [if_neg hfar]
        cases hend : checkedDecodedEnd output.length ((tag &&& 0x7f).toNat + 4) expected cursor with
        | error error => exact ⟨_, rfl, fun _ _ h => nomatch h⟩
        | ok outputEnd =>
          obtain ⟨hsum, hle⟩ := checkedDecodedEnd_ok hend
          obtain ⟨copied, hcopy, hlength⟩ := copyBack_length (Nat.pos_of_ne_zero hzero)
            (outputEnd - output.length) output (by omega)
          simp only [hcopy, Option.bind_some]
          refine ⟨_, rfl, fun cursor' output' h => ?_⟩
          cases h
          omega

theorem decodeLoop_total (input : List UInt8) (expected fuel : ℕ) :
    ∀ (cursor : ℕ) (output : List UInt8), cursor ≤ input.length → output.length ≤ expected →
      expected - output.length < fuel →
      ∃ result, decodeLoop input expected fuel cursor output = some result ∧
        ∀ decoded, result = .ok decoded → decoded.length = expected := by
  induction fuel with
  | zero => intros; omega
  | succ fuel ih =>
    intro cursor output hcursor hle hfuel
    rw [decodeLoop]
    by_cases hmore : output.length < expected
    · rw [if_pos hmore]
      obtain ⟨result, htoken, hok⟩ := decodeToken_total input expected cursor output
      rw [htoken]
      cases result with
      | error error => exact ⟨_, rfl, fun _ h => nomatch h⟩
      | ok after =>
        obtain ⟨cursor', output'⟩ := after
        obtain ⟨hcursor', hgrow, hle'⟩ := hok cursor' output' rfl
        exact ih cursor' output' hcursor' hle' (by omega)
    · rw [if_neg hmore, if_neg (by omega)]
      by_cases htrailing : cursor ≠ input.length
      · rw [if_pos htrailing]
        exact ⟨_, rfl, fun _ h => nomatch h⟩
      · rw [if_neg htrailing]
        refine ⟨_, rfl, fun decoded h => ?_⟩
        cases h
        omega

/-! ## What a written prefix decodes to -/

/-- The decoder turns `output`, at the start of any stream that is long enough, into `plain`. -/
def Written (output plain : List UInt8) : Prop :=
  ∀ (rest : List UInt8) (expected : ℕ), plain.length ≤ expected → expected ≤ usizeMax →
    ∃ tokens ≤ plain.length, ∀ fuel,
      decodeLoop (output ++ rest) expected (fuel + tokens) 0 [] =
        decodeLoop (output ++ rest) expected fuel output.length plain

theorem Written.nil : Written [] [] := by
  intro rest expected _ _
  exact ⟨0, Nat.le_refl _, fun fuel => rfl⟩

/-- A token that decodes to `chunk` after `plain`, wherever the stream goes on. -/
theorem Written.token {output plain token chunk : List UInt8} (h : Written output plain)
    (hchunk : chunk ≠ [])
    (htoken : ∀ (rest : List UInt8) (expected : ℕ), plain.length + chunk.length ≤ expected →
      expected ≤ usizeMax →
      decodeToken (output ++ (token ++ rest)) expected output.length plain =
        some (.ok (output.length + token.length, plain ++ chunk))) :
    Written (output ++ token) (plain ++ chunk) := by
  intro rest expected hle hmax
  have hpos : 0 < chunk.length := length_pos_iff.mpr hchunk
  rw [length_append] at hle
  obtain ⟨tokens, htokens, hrun⟩ := h (token ++ rest) expected (by omega) hmax
  refine ⟨tokens + 1, by rw [length_append]; omega, fun fuel => ?_⟩
  have hsplit : fuel + (tokens + 1) = fuel + 1 + tokens := by omega
  rw [append_assoc, hsplit, hrun, decodeLoop, if_pos (by omega),
    htoken rest expected hle hmax, length_append]
  rfl

/-! ## Literal runs -/

theorem literalTag_and : ∀ n : Fin 128, UInt8.ofNat n &&& 0x80 = 0 := by decide

theorem copyTag_and : ∀ n : Fin 128, (0x80 ||| UInt8.ofNat n) &&& 0x80 ≠ 0 ∧
    ((0x80 ||| UInt8.ofNat n) &&& 0x7f).toNat = n := by decide

variable {output plain : List UInt8}

theorem decodeToken_literal {chunk rest : List UInt8} (hchunk : chunk ≠ [])
    (hlen : chunk.length ≤ 128) (hle : plain.length + chunk.length ≤ expected)
    (hmax : expected ≤ usizeMax) :
    decodeToken (output ++ (UInt8.ofNat (chunk.length - 1) :: chunk ++ rest)) expected
        output.length plain =
      some (.ok (output.length + (chunk.length + 1), plain ++ chunk)) := by
  have hpos : 0 < chunk.length := length_pos_iff.mpr hchunk
  have htag := literalTag_and ⟨chunk.length - 1, by omega⟩
  have htoNat : (UInt8.ofNat (chunk.length - 1)).toNat + 1 = chunk.length := by
    rw [UInt8.toNat_ofNat']
    omega
  have hslice : slice (output ++ (UInt8.ofNat (chunk.length - 1) :: chunk ++ rest))
      (output.length + 1) (output.length + 1 + chunk.length) = some chunk := by
    rw [slice_some (by omega) (by simp; omega)]
    have hassoc : output ++ (UInt8.ofNat (chunk.length - 1) :: chunk ++ rest) =
        (output ++ [UInt8.ofNat (chunk.length - 1)]) ++ chunk ++ rest := by simp
    rw [hassoc, take_left' (by simp; omega), drop_left' (by simp)]
  unfold decodeToken
  rw [getElem?_append_right (Nat.le_refl _), Nat.sub_self, cons_append, getElem?_cons_zero]
  simp only [if_pos htag, htoNat]
  rw [if_neg (by simp; omega), checkedDecodedEnd_fits _ hle hmax]
  rw [cons_append] at hslice
  simp only [hslice, bind_eq_bind, bind_some, some.injEq, Except.ok.injEq, Prod.mk.injEq, and_true]
  omega

theorem literalTokens_written (fuel : ℕ) :
    ∀ (output plain literals : List UInt8), literals.length ≤ fuel → Written output plain →
      Written (output ++ literalTokens fuel literals) (plain ++ literals) := by
  induction fuel with
  | zero =>
    intro output plain literals hfuel h
    have : literals = [] := length_eq_zero_iff.mp (by omega)
    subst this
    simpa [literalTokens] using h
  | succ fuel ih =>
    intro output plain literals hfuel h
    rw [literalTokens]
    by_cases hnil : literals = []
    · subst hnil
      simpa using h
    · have hpos : 0 < literals.length := length_pos_iff.mpr hnil
      have hchunk : literals.take 128 ≠ [] := by
        intro heq
        have := congrArg length heq
        simp at this
        exact hnil this
      have hfirst : Written
          (output ++ (UInt8.ofNat ((literals.take 128).length - 1) :: literals.take 128))
          (plain ++ literals.take 128) := by
        refine h.token hchunk fun rest expected hle hmax => ?_
        exact decodeToken_literal hchunk (length_take_le _ _) hle hmax
      have hrest := ih _ _ (literals.drop 128) (by rw [length_drop]; omega) hfirst
      rw [append_assoc, append_assoc, take_append_drop] at hrest
      rw [if_neg hnil]
      exact hrest

theorem emitLiterals_written (h : Written output plain)
    (literals : List UInt8) : Written (emitLiterals output literals) (plain ++ literals) :=
  literalTokens_written _ _ _ _ (Nat.le_refl _) h

/-- One tag for every 128 literals. -/
theorem literalTokens_length (fuel : ℕ) : ∀ literals : List UInt8, literals.length ≤ fuel →
      (literalTokens fuel literals).length = literals.length + (literals.length + 127) / 128 := by
  induction fuel with
  | zero =>
    intro literals hfuel
    have : literals.length = 0 := by omega
    simp [literalTokens, this]
  | succ fuel ih =>
    intro literals hfuel
    rw [literalTokens]
    by_cases hnil : literals = []
    · subst hnil
      rfl
    · have hpos : 0 < literals.length := length_pos_iff.mpr hnil
      have hrest := ih (literals.drop 128) (by rw [length_drop]; omega)
      rw [length_drop] at hrest
      rw [if_neg hnil, length_cons, length_append, length_take, hrest]
      omega

theorem emitLiterals_length (output literals : List UInt8) : (emitLiterals output literals).length =
      output.length + (literals.length + (literals.length + 127) / 128) := by
  rw [emitLiterals, length_append, literalTokens_length _ _ (Nat.le_refl _)]

/-! ## Copies -/

theorem commonLength_spec (maximum : ℕ) :
    ∀ as bs : List UInt8, commonLength maximum as bs ≤ maximum ∧
      ∀ i < commonLength maximum as bs, as[i]? = bs[i]? := by
  induction maximum with
  | zero => simp [commonLength]
  | succ maximum ih =>
    intro as bs
    cases as with
    | nil => simp [commonLength]
    | cons a as =>
      cases bs with
      | nil => simp [commonLength]
      | cons b bs =>
        obtain ⟨hle, heq⟩ := ih as bs
        rw [commonLength]
        by_cases hab : a = b
        · rw [if_pos hab]
          refine ⟨by omega, fun i hi => ?_⟩
          cases i with
          | zero => simp [hab]
          | succ i => simpa using heq i (by omega)
        · rw [if_neg hab]
          exact ⟨by omega, fun i hi => by omega⟩

/-- Where the input repeats itself, the byte-by-byte copy extends a prefix of it, also when source and
target overlap. -/
theorem copyBack_prefix (hpos : 0 < distance) (count : ℕ) :
    ∀ cursor, distance ≤ cursor → cursor + count ≤ input.length →
      (∀ i < count, input[cursor - distance + i]? = input[cursor + i]?) →
      copyBack distance count (input.take cursor) = some (input.take (cursor + count)) := by
  induction count with
  | zero => intros; rfl
  | succ count ih =>
    intro cursor hdistance hfit hrepeat
    have hlength : (input.take cursor).length = cursor := by
      rw [length_take]
      omega
    have hfirst : (input.take cursor)[cursor - distance]? = some input[cursor] := by
      rw [getElem?_take_of_lt (by omega)]
      have := hrepeat 0 (by omega)
      rw [Nat.add_zero, Nat.add_zero] at this
      rw [this, getElem?_eq_getElem]
    have hsucc : input.take cursor ++ [input[cursor]] = input.take (cursor + 1) :=
      (take_succ_eq_append_getElem (by omega)).symm
    rw [copyBack, hlength, if_neg (by omega), hfirst]
    simp only [bind_eq_bind, bind_some]
    rw [hsucc, ih (cursor + 1) (by omega) (by omega)]
    · rw [Nat.add_right_comm cursor 1 count, Nat.add_assoc]
    · intro i hi
      have := hrepeat (i + 1) (by omega)
      rw [show cursor + 1 - distance + i = cursor - distance + (i + 1) by omega, this,
        show cursor + 1 + i = cursor + (i + 1) by omega]

variable {cursor : ℕ}

/-- The copy of a match: its token decodes to the bytes that matched. -/
theorem emitCopy_written {copyLen : ℕ} (h : Written output (input.take cursor))
    (hpos : 0 < distance) (hdistance : distance ≤ cursor) (hwindow : distance ≤ 65535)
    (hmin : 4 ≤ copyLen) (hmax : copyLen ≤ 131) (hfit : cursor + copyLen ≤ input.length)
    (hrepeat : ∀ i < copyLen, input[cursor - distance + i]? = input[cursor + i]?) :
    Written (emitCopy output distance copyLen) (input.take (cursor + copyLen)) := by
  have hplain : (input.take cursor).length = cursor := by
    rw [length_take]
    omega
  have hsplit : input.take (cursor + copyLen) =
      input.take cursor ++ (input.drop cursor).take copyLen := take_add
  have hchunk : ((input.drop cursor).take copyLen).length = copyLen := by
    rw [length_take, length_drop]
    omega
  have hcopy := copyBack_prefix hpos copyLen cursor hdistance hfit hrepeat
  obtain ⟨htag, hcount⟩ := copyTag_and ⟨copyLen - 4, by omega⟩
  have hbytes : (UInt8.ofNat distance).toNat + 256 * (UInt8.ofNat (distance / 256)).toNat =
      distance := by
    rw [UInt8.toNat_ofNat', UInt8.toNat_ofNat']
    omega
  rw [hsplit]
  refine h.token (ne_nil_of_length_pos (by omega)) fun rest expected hle hexpected => ?_
  rw [hplain, hchunk] at hle
  have hend := checkedDecodedEnd_fits output.length hle hexpected
  unfold decodeToken
  have hget : ∀ i < 3, (output ++ ([0x80 ||| UInt8.ofNat (copyLen - 4), UInt8.ofNat distance,
      UInt8.ofNat (distance / 256)] ++ rest))[output.length + i]? =
      [0x80 ||| UInt8.ofNat (copyLen - 4), UInt8.ofNat distance,
        UInt8.ofNat (distance / 256)][i]? := by
    intro i hi
    rw [getElem?_append_right (by omega), Nat.add_sub_cancel_left,
      getElem?_append_left (by simpa using hi)]
  have hget₀ := hget 0 (by omega)
  rw [Nat.add_zero] at hget₀
  rw [hget₀, hget 1 (by omega), hget 2 (by omega)]
  simp only [getElem?_cons_zero, getElem?_cons_succ, if_neg htag, bind_eq_bind,
    bind_some, hbytes, hcount, hplain]
  rw [if_neg (by simp; omega), if_neg (by omega), if_neg (by omega),
    show copyLen - 4 + 4 = copyLen by omega, hend]
  simp only [Nat.add_sub_cancel_left, hcopy, bind_some, hsplit, length_cons, length_nil]

/-! ## The compressor's loop -/

/-- What is written takes at most the literal-only bound of what it encodes; after a copy one byte is
spare, and it pays for the literal run the copy has split. -/
def Economical (written encoded : ℕ) : Prop :=
  written = 0 ∧ encoded = 0 ∨ written + 1 ≤ encoded + (encoded + 127) / 128

theorem Economical.copy {written encoded copyLen : ℕ} (h : Economical written encoded)
    (literals : ℕ) (hmin : 4 ≤ copyLen) :
    Economical (written + (literals + (literals + 127) / 128) + 3) (encoded + literals + copyLen) := by
  unfold Economical at h ⊢
  omega

theorem Economical.last {written encoded : ℕ} (h : Economical written encoded) (literals : ℕ) :
    written + (literals + (literals + 127) / 128) ≤
      encoded + literals + (encoded + literals + 127) / 128 := by
  unfold Economical at h
  omega

/-- A match the compressor accepts repeats earlier bytes of the input within the window. -/
theorem candidateMatchLength_spec {candidate : ℕ} (windowSize : ℕ)
    (hcandidate : candidate = emptyPosition ∨ candidate < cursor)
    (hcursor : cursor ≤ input.length) :
    ∃ matchLength, candidateMatchLength input cursor candidate windowSize = some matchLength ∧
      (4 ≤ matchLength → candidate < cursor ∧ cursor - candidate ≤ windowSize ∧
        matchLength ≤ 131 ∧ cursor + matchLength ≤ input.length ∧
        ∀ i < matchLength, input[candidate + i]? = input[cursor + i]?) := by
  unfold candidateMatchLength
  by_cases hempty : candidate = emptyPosition
  · rw [if_pos hempty]
    exact ⟨0, rfl, fun h => by omega⟩
  have hlt : candidate < cursor := hcandidate.resolve_left hempty
  rw [if_neg hempty, if_neg (by omega)]
  by_cases hfar : windowSize < cursor - candidate
  · rw [if_pos hfar]
    exact ⟨0, rfl, fun h => by omega⟩
  rw [if_neg hfar]
  obtain ⟨hle, heq⟩ := commonLength_spec (min 131 (input.length - cursor)) (input.drop candidate)
    (input.drop cursor)
  refine ⟨_, rfl, fun _ => ⟨hlt, by omega, by omega, by omega, fun i hi => ?_⟩⟩
  have := heq i hi
  rwa [getElem?_drop, getElem?_drop] at this

theorem hashBucket_some (entries : ℕ)
    (h : 4 ≤ input.length - cursor) : ∃ bucket, hashBucket input cursor entries = some bucket := by
  have hlength : (input.drop cursor).length = input.length - cursor := length_drop
  unfold hashBucket
  match hdrop : input.drop cursor with
  | a :: b :: c :: d :: rest => exact ⟨_, rfl⟩
  | [] | [_] | [_, _] | [_, _, _] =>
    rw [hdrop] at hlength
    simp at hlength
    omega

/-- `input[start..stop]` after `input[..start]`. -/
theorem take_append_slice {start stop : ℕ} (h : start ≤ stop) :
    input.take start ++ (input.take stop).drop start = input.take stop := by
  have : input.take start = (input.take stop).take start := by
    rw [take_take, Nat.min_eq_left h]
  rw [this, take_append_drop]

/-- The loop keeps: what is written decodes to the input before `literalStart`, economically, and the
table holds positions before the cursor. -/
theorem compressLoop_written (input : List UInt8) (profile : CodecProfile) (fuel : ℕ) :
    ∀ (cursor literalStart : ℕ) (output : List UInt8) (latest : Latest),
      input.length - cursor < fuel → literalStart ≤ cursor → cursor ≤ input.length →
      Written output (input.take literalStart) → Economical output.length literalStart →
      (∀ bucket, latest bucket = emptyPosition ∨ latest bucket < cursor) →
      ∃ bytes, compressLoop Latest.replace input profile.windowSize profile.hashTableEntries fuel
          cursor literalStart output latest = some bytes ∧
        Written bytes input ∧ bytes.length ≤ input.length + (input.length + 127) / 128 := by
  induction fuel with
  | zero => intros; omega
  | succ fuel ih =>
    intro cursor literalStart output latest hfuel hstart hcursor hwritten hcost hlatest
    rw [compressLoop, if_neg (by omega)]
    by_cases hmore : 4 ≤ input.length - cursor
    · rw [if_pos hmore]
      obtain ⟨bucket, hbucket⟩ := hashBucket_some profile.hashTableEntries hmore
      obtain ⟨matchLength, hmatch, haccept⟩ :=
        candidateMatchLength_spec profile.windowSize (hlatest bucket) hcursor
      have hlatest' : ∀ next, cursor < next → ∀ b, update latest bucket cursor b = emptyPosition ∨
            update latest bucket cursor b < next := by
        intro next hnext b
        by_cases hb : b = bucket
        · subst hb
          rw [update_self]
          exact Or.inr hnext
        · rw [update_of_ne hb]
          exact (hlatest b).imp_right fun h => Nat.lt_trans h hnext
      simp only [hbucket, Latest.replace, hmatch, bind_eq_bind, bind_some]
      by_cases hlong : 4 ≤ matchLength
      · obtain ⟨hlt, hwindow, hmax, hfit, hrepeat⟩ := haccept hlong
        rw [if_pos hlong, slice_some hstart hcursor]
        simp only [bind_some]
        have hliterals := emitLiterals_written hwritten ((input.take cursor).drop literalStart)
        rw [take_append_slice hstart] at hliterals
        have hwidth : cursor - latest bucket ≤ 65535 := Nat.le_trans hwindow profile.window_le.2
        have hback : cursor - (cursor - latest bucket) = latest bucket := by omega
        rw [← hback] at hrepeat
        have hcopied := emitCopy_written hliterals (Nat.sub_pos_of_lt hlt) (Nat.sub_le _ _) hwidth
          hlong hmax hfit hrepeat
        refine ih _ _ _ _ (by omega) (Nat.le_refl _) hfit hcopied ?_ (hlatest' _ (by omega))
        have hpaid := hcost.copy (cursor - literalStart) hlong
        have hlen : ((input.take cursor).drop literalStart).length = cursor - literalStart := by
          rw [length_drop, length_take]
          omega
        rw [emitCopy, length_append, emitLiterals_length, hlen]
        rwa [show literalStart + (cursor - literalStart) + matchLength = cursor + matchLength by
          omega] at hpaid
      · rw [if_neg hlong]
        exact ih _ _ _ _ (by omega) (by omega) (by omega) hwritten hcost (hlatest' _ (by omega))
    · rw [if_neg hmore, slice_some (by omega) (Nat.le_refl _)]
      refine ⟨_, rfl, ?_, ?_⟩
      · have hliterals :=
          emitLiterals_written hwritten ((input.take input.length).drop literalStart)
        rw [take_append_slice (by omega)] at hliterals
        simpa using hliterals
      · have hlast := hcost.last (input.length - literalStart)
        rw [emitLiterals_length, take_length, length_drop]
        rwa [show literalStart + (input.length - literalStart) = input.length by omega] at hlast

/-! ## Whole blocks -/

/-- Every profile is one its constructor gives. -/
theorem tryNew_profile (profile : CodecProfile) :
    CodecProfile.tryNew profile.windowSize profile.hashTableEntries profile.maxBlockLen =
      .ok profile := by
  obtain ⟨windowSize, hashTableEntries, maxBlockLen, maxEncodedBound, hwindow, hentries, hpow,
    hbound⟩ := profile
  unfold CodecProfile.tryNew
  rw [dif_neg (Nat.not_lt.mpr hwindow.1), dif_neg (Nat.not_lt.mpr hwindow.2),
    dif_neg (Nat.not_lt.mpr hentries.1), dif_neg (Nat.not_lt.mpr hentries.2), dif_pos hpow]
  split
  · next hnone => rw [hbound] at hnone; cases hnone
  · next bound hsome =>
    rw [hbound, some.injEq] at hsome
    subst hsome
    rfl

variable {profile : CodecProfile}

/-- The bound of an admitted input is representable. -/
theorem maxEncodedLen_admitted (h : input.length ≤ profile.maxBlockLen) :
    maxEncodedLen input.length = some (input.length + (input.length + 127) / 128) ∧
      input.length ≤ usizeMax := by
  have hbound := profile.bound_eq
  unfold maxEncodedLen at hbound ⊢
  simp only [ite_none_right_eq_some] at hbound
  have hfits : input.length + (input.length + 127) / 128 ≤ usizeMax := by
    have := hbound.1
    omega
  exact ⟨if_pos hfits, by omega⟩

/-- Any table that stands for no positions gives the bytes of the function. -/
theorem compressWith_latest {table : MatchTable}
    (h : Represents profile.hashTableEntries (input.length - 3) table .new) :
    compressWith table input profile =
      compressLoop Latest.replace input profile.windowSize profile.hashTableEntries
        (input.length + 1) 0 0 [] .new :=
  compressLoop_latest input profile _ 0 0 [] table .new h

theorem compressWith_written {table : MatchTable}
    (h : Represents profile.hashTableEntries (input.length - 3) table .new) :
    ∃ bytes, compressWith table input profile = some bytes ∧ Written bytes input ∧
      bytes.length ≤ input.length + (input.length + 127) / 128 := by
  rw [compressWith_latest h]
  exact compressLoop_written input profile _ 0 0 [] .new (by omega) (Nat.le_refl _) (Nat.zero_le _)
    Written.nil (Or.inl ⟨rfl, rfl⟩) fun _ => Or.inl rfl

theorem sparseEntries_some {inputLen requested : ℕ} (h : sparseEntries inputLen = some requested) :
    256 + 48 * (inputLen - 3) ≤ emptyPosition := by
  unfold sparseEntries at h
  simp only [ite_none_right_eq_some] at h
  have hmax : (inputLen - 3) * 48 + 256 ≤ emptyPosition := h.1
  omega

/-- The table that is chosen stands for no positions; otherwise the refused request is named. -/
theorem withReservation_spec (inputLen entries : ℕ) (reservation : Reservation) :
    (∃ table, MatchTable.withReservation inputLen entries reservation = .ok table ∧
      Represents entries (inputLen - 3) table .new) ∨
    ∃ requested, reservation .hashTable requested = false ∧
      MatchTable.withReservation inputLen entries reservation =
        .error (.allocationFailed .hashTable requested) := by
  unfold MatchTable.withReservation
  split
  · next requested hfilter =>
    have hsome := (filter_eq_some_iff.mp hfilter).1
    cases hgrant : reservation .hashTable requested with
    | true =>
      exact Or.inl ⟨_, if_pos rfl, newSparse_represents entries (sparseEntries_some hsome)⟩
    | false => exact Or.inr ⟨requested, hgrant, by simp⟩
  · cases hgrant : reservation .hashTable entries with
    | true => exact Or.inl ⟨_, if_pos rfl, newDense_represents entries _⟩
    | false => exact Or.inr ⟨entries, hgrant, by simp⟩

/-- An admitted block is compressed within its bound, unless a reservation is refused. -/
theorem compress_written (h : input.length ≤ profile.maxBlockLen) (reservation : Reservation) :
    (∃ bytes, compress input profile reservation = some (.ok bytes) ∧ Written bytes input ∧
      bytes.length ≤ input.length + (input.length + 127) / 128) ∨
    ∃ target requested, reservation target requested = false ∧
      compress input profile reservation = some (.error (.allocationFailed target requested)) := by
  unfold compress
  rw [if_neg (by omega), (maxEncodedLen_admitted h).1, getD_some]
  cases hgrant : reservation .encodedOutput (input.length + (input.length + 127) / 128) with
  | false => exact Or.inr ⟨_, _, hgrant, by simp [hgrant]⟩
  | true =>
    simp only [hgrant, Bool.not_true, Bool.false_eq_true, if_false]
    by_cases hshort : input.length < 4
    · rw [if_pos hshort]
      refine Or.inl ⟨_, rfl, emitLiterals_written Written.nil input, Nat.le_of_eq ?_⟩
      rw [emitLiterals_length, length_nil, Nat.zero_add]
    · rw [if_neg hshort]
      obtain ⟨table, htable, hnew⟩ | ⟨requested, hrefused, herror⟩ :=
        withReservation_spec input.length profile.hashTableEntries reservation
      · obtain ⟨bytes, hbytes, hwritten, hlength⟩ := compressWith_written hnew
        exact Or.inl ⟨bytes, by simp [htable, hbytes], hwritten, hlength⟩
      · exact Or.inr ⟨_, requested, hrefused, by simp [herror]⟩

/-- Bytes that decode to `plain` as a prefix decode to it as a whole. -/
theorem decompress_written {bytes : List UInt8} (h : Written bytes plain)
    (hmax : plain.length ≤ usizeMax) {limit : ℕ} (hlimit : plain.length ≤ limit) :
    decompress bytes plain.length limit true = some (.ok plain) := by
  obtain ⟨tokens, hle, hrun⟩ := h [] plain.length (Nat.le_refl _) hmax
  have hfuel : plain.length + 1 = plain.length - tokens + 1 + tokens := by omega
  rw [append_nil] at hrun
  rw [decompress, if_neg (by omega), if_neg (by simp), hfuel, hrun, decodeLoop,
    if_neg (Nat.lt_irrefl _), if_neg (Nat.lt_irrefl _), if_neg (by simp)]

/-- Block compression is lossless and bounded, does not depend on the layout of the match table, and
the decompressor is safe on any bytes. -/
theorem block_compression (profile : CodecProfile) :
    (∀ (input : List UInt8) (reservation : Reservation), input.length ≤ profile.maxBlockLen →
      (∃ bytes bound, compress input profile reservation = some (.ok bytes) ∧
        maxEncodedLen input.length = some bound ∧ bytes.length ≤ bound ∧
        ∀ limit, input.length ≤ limit →
          decompress bytes input.length limit true = some (.ok input)) ∨
      ∃ target requested, reservation target requested = false ∧
        compress input profile reservation = some (.error (.allocationFailed target requested))) ∧
    (∀ (input : List UInt8) (requested : ℕ), sparseEntries input.length = some requested →
      ∃ bytes, compressWith .newSparse input profile = some bytes ∧
        compressWith (.newDense profile.hashTableEntries) input profile = some bytes) ∧
    ∀ (input : List UInt8) (expected limit : ℕ) (granted : Bool),
      ∃ result, decompress input expected limit granted = some result ∧
        ∀ output, result = .ok output → output.length = expected := by
  refine ⟨?_, ?_, ?_⟩
  · intro input reservation hinput
    obtain ⟨hbound, hmax⟩ := maxEncodedLen_admitted hinput
    obtain ⟨bytes, hcompress, hwritten, hlength⟩ | hrefused := compress_written hinput reservation
    · exact Or.inl ⟨bytes, _, hcompress, hbound, hlength,
        fun limit hlimit => decompress_written hwritten hmax hlimit⟩
    · exact Or.inr hrefused
  · intro input requested hsparse
    have hnew := newSparse_represents profile.hashTableEntries (sparseEntries_some hsparse)
    obtain ⟨bytes, hbytes, -, -⟩ := compressWith_written hnew
    refine ⟨bytes, hbytes, ?_⟩
    rw [← hbytes, compressWith_latest hnew, compressWith_latest (newDense_represents _ _)]
  · intro input expected limit granted
    unfold decompress
    split
    · exact ⟨_, rfl, fun _ h => nomatch h⟩
    · split
      · exact ⟨_, rfl, fun _ h => nomatch h⟩
      · exact decodeLoop_total input expected _ 0 [] (Nat.zero_le _) (Nat.zero_le _) (by simp)

/-- A profile with the smallest table. -/
def smallProfile : CodecProfile where
  windowSize := 16
  hashTableEntries := 256
  maxBlockLen := 12
  maxEncodedBound := 13
  window_le := by decide
  entries_le := by decide
  entries_pow := by decide
  bound_eq := by decide

/-- Twelve bytes, most of them an overlapping copy. -/
theorem block_compression_sample :
    ∃ bytes, compress [7, 7, 7, 7, 7, 7, 7, 7, 7, 7, 7, 9] smallProfile (fun _ _ => true) =
        some (.ok bytes) ∧ bytes.length ≤ 13 ∧
      decompress bytes 12 12 true = some (.ok [7, 7, 7, 7, 7, 7, 7, 7, 7, 7, 7, 9]) := by
  obtain ⟨bytes, bound, hcompress, hbound, hle, hdecode⟩ | ⟨_, _, hrefused, _⟩ :=
    (block_compression smallProfile).1 [7, 7, 7, 7, 7, 7, 7, 7, 7, 7, 7, 9] (fun _ _ => true)
      (by decide)
  · have hthirteen : maxEncodedLen 12 = some 13 := by decide
    have : bound = 13 := some.inj (hbound.symm.trans hthirteen)
    subst this
    exact ⟨bytes, hcompress, hle, hdecode 12 (by decide)⟩
  · cases hrefused

end FrankenGraph.Codec
