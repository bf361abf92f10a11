import FrankenGraph.Library.Fallible
import FrankenGraph.Warden.Planner

/-!
# Restrictions as caveats

A restriction travels as a caveat predicate of the token: `fgdb-warden/src/token.rs` (L380-506).
Scopes are written as comma-separated 16-digit ordinals in increasing order, numbers as decimal
numerals without leading zeros; both are refused in any other spelling.

Results:
* `parseScope_encodeScope`: a scope is read back as it was written
* `size_of_parseScope`: no accepted scope names more than 256 ordinals
* `decodeRestriction_encodeRestriction`: an encoded restriction decodes to itself
-/

namespace FrankenGraph.Warden

open List Except

/-- `Restriction` (`lib.rs` L183-196). -/
inductive Restriction where
  | branch (name : List Char)
  | labels (scope : Scope LabelId)
  | relations (scope : Scope RelationId)
  | properties (scope : Scope PropertyKeyId)
  | denyProperties (keys : BTreeSet PropertyKeyId)
  | rights (rights : Rights)
  | maxNodes (limit : UInt64)
  | maxWork (limit : UInt64)
  | maxRows (limit : UInt64)
  | expiresBefore (time : UInt64)
  | notBefore (time : UInt64)
  deriving DecidableEq

/-- The predicates of the foundation's macaroons. Those that no restriction is written as (region
and task scopes, use counts, resources and rates) are one case: every one of them is refused. -/
inductive CaveatPredicate where
  | timeBefore (time : UInt64)
  | timeAfter (time : UInt64)
  | custom (key value : List Char)
  | foreign
  deriving DecidableEq

/-! ## Names and limits -/

/-- `MAX_SCOPE_ORDINALS` (`lib.rs` L52). -/
def maxScopeOrdinals : Nat := 256

/-- `MAX_NAME_BYTES` (`lib.rs` L53). -/
def maxNameBytes : Nat := 256

/-- `MAX_VALUE_BYTES` (`lib.rs` L54). -/
def maxValueBytes : Nat := 8192

/-- The length of a text in bytes. -/
def byteLength (text : List Char) : Nat :=
  (text.map Char.utf8Size).sum

/-- `char::is_control`: the general category `Cc`. -/
def isControl (c : Char) : Bool :=
  c.toNat < 0x20 || (0x7f ≤ c.toNat && c.toNat ≤ 0x9f)

/-- `validate_name` (`lib.rs` L250-258). -/
def validateName (value : List Char) : Except Error Unit := do
  refuse (byteLength value > maxNameBytes) .tooLarge
  refuse (value.isEmpty || value.any isControl) .malformed

def branchKey : List Char := "fgdb/warden/v1/branch".toList
def labelsKey : List Char := "fgdb/warden/v1/labels".toList
def relationsKey : List Char := "fgdb/warden/v1/relations".toList
def propertiesKey : List Char := "fgdb/warden/v1/properties".toList
def denyPropertiesKey : List Char := "fgdb/warden/v1/deny-properties".toList
def rightsKey : List Char := "fgdb/warden/v1/rights".toList
def maxNodesKey : List Char := "fgdb/warden/v1/max-nodes".toList
def maxWorkKey : List Char := "fgdb/warden/v1/max-work".toList
def maxRowsKey : List Char := "fgdb/warden/v1/max-rows".toList

/-! ## Writing -/

/-- The low `width` hexadecimal digits of a number, most significant first: `{:016x}` at width 16. -/
def hexDigits : Nat → Nat → List Char
  | 0, _ => []
  | width + 1, value => hexDigits width (value / 16) ++ [(value % 16).digitChar]

/-- `validate_scope` (`token.rs` L432-439). -/
def validateScope (scope : Scope UInt64) : Except Error Unit :=
  match scope with
  | .all => .ok ()
  | .only values => refuse (values.size > maxScopeOrdinals) .tooLarge

/-- `encode_scope` (L414-430). -/
def encodeScope (scope : Scope UInt64) : Except Error (List Char) := do
  validateScope scope
  match scope with
  | .all => .ok ['*']
  | .only values =>
    if values.size > maxScopeOrdinals then .error .tooLarge
    else if values.isEmpty then .ok ['-']
    else .ok ([','].intercalate (values.toList.map fun value => hexDigits 16 value.toNat))

/-- `custom` (L380-385). -/
def custom (key value : List Char) : Except Error CaveatPredicate :=
  if byteLength value > maxValueBytes then .error .tooLarge else .ok (.custom key value)

/-- The decimal numeral of a number. -/
def decimal (value : UInt64) : List Char :=
  Nat.toDigits 10 value.toNat

/-- `encode_restriction` (L387-412). -/
def encodeRestriction : Restriction → Except Error CaveatPredicate
  | .branch name => do
    validateName name
    custom branchKey name
  | .labels scope => do custom labelsKey (← encodeScope scope)
  | .relations scope => do custom relationsKey (← encodeScope scope)
  | .properties scope => do custom propertiesKey (← encodeScope scope)
  | .denyProperties keys => do
    refuse (keys.size > maxScopeOrdinals) .tooLarge
    custom denyPropertiesKey (← encodeScope (.only keys))
  | .rights rights => custom rightsKey (decimal rights.bits)
  | .maxNodes value => custom maxNodesKey (decimal value)
  | .maxWork value => custom maxWorkKey (decimal value)
  | .maxRows value => custom maxRowsKey (decimal value)
  | .expiresBefore value => .ok (.timeBefore value)
  | .notBefore value => .ok (.timeAfter value)

/-! ## Reading -/

/-- The digit a character stands for, among `0`-`9` and `a`-`f`. -/
def hexValue (c : Char) : Option Nat :=
  if '0' ≤ c ∧ c ≤ '9' then some (c.toNat - 48)
  else if 'a' ≤ c ∧ c ≤ 'f' then some (c.toNat - 87)
  else none

/-- The number that a text of hexadecimal digits denotes. -/
def ofHex (text : List Char) : Nat :=
  text.foldl (fun value c => value * 16 + (hexValue c).getD 0) 0

/-- One item of the loop of `parse_scope` (L450-467), over the ordinals read so far and the
last of them. -/
def parseItem (state : BTreeSet UInt64 × Option UInt64) (item : List Char) :
    Except Error (BTreeSet UInt64 × Option UInt64) := do
  refuse (item.length != 16 || !item.all fun c => (hexValue c).isSome) .malformed
  let ordinal := UInt64.ofNat (ofHex item)
  refuse (state.2.any fun previous => previous ≥ ordinal) .malformed
  refuse (state.1.size ≥ maxScopeOrdinals) .tooLarge
  return (state.1.insert ordinal, some ordinal)

/-- `parse_scope` (L441-469). -/
def parseScope (value : List Char) : Except Error (Scope UInt64) :=
  if value = ['*'] then .ok .all
  else if value = ['-'] then .ok (.only ∅)
  else do
    let (values, _) ← (value.splitOn ',').foldlM parseItem (∅, none)
    return .only values

/-- `unsigned` (L471-480). -/
def unsigned (value : List Char) : Except Error UInt64 := do
  refuse (value.isEmpty || value.length > 20 || !value.all Char.isDigit ||
    (value.length > 1 && value.head? == some '0')) .malformed
  let number := Nat.ofDigitChars 10 value 0
  refuse (number ≥ 2 ^ 64) .malformed
  return UInt64.ofNat number

/-- The deny list that a scope stands for; the universe is refused. -/
def denyList : Scope PropertyKeyId → Except Error Restriction
  | .only keys => .ok (.denyProperties keys)
  | .all => .error .malformed

/-- `decode_restriction` (L482-506). -/
def decodeRestriction : CaveatPredicate → Except Error Restriction
  | .timeBefore time => .ok (.expiresBefore time)
  | .timeAfter time => .ok (.notBefore time)
  | .custom key value =>
    if key = branchKey then do
      validateName value
      return .branch value
    else if key = labelsKey then return .labels (← parseScope value)
    else if key = relationsKey then return .relations (← parseScope value)
    else if key = propertiesKey then return .properties (← parseScope value)
    else if key = denyPropertiesKey then do denyList (← parseScope value)
    else if key = rightsKey then return .rights (← Rights.fromBits (← unsigned value))
    else if key = maxNodesKey then return .maxNodes (← unsigned value)
    else if key = maxWorkKey then return .maxWork (← unsigned value)
    else if key = maxRowsKey then return .maxRows (← unsigned value)
    else .error .unsupportedCaveat
  | .foreign => .error .unsupportedCaveat

/-! ## Numerals -/

@[simp]
theorem length_hexDigits (width value : Nat) : (hexDigits width value).length = width := by
  induction width generalizing value with
  | zero => rfl
  | succ width ih => simp [hexDigits, ih]

theorem hexValue_digitChar {digit : Nat} (h : digit < 16) :
    hexValue digit.digitChar = some digit := by
  have hall : ∀ digit : Fin 16, hexValue digit.val.digitChar = some digit.val := by decide
  exact hall ⟨digit, h⟩

theorem hexValue_of_mem_hexDigits {width value : Nat} {c : Char} (h : c ∈ hexDigits width value) :
    (hexValue c).isSome = true ∧ c ≠ ',' := by
  induction width generalizing value with
  | zero => exact absurd h not_mem_nil
  | succ width ih =>
    rcases mem_append.mp h with h | h
    · exact ih h
    · obtain rfl := mem_singleton.mp h
      have hdigit := hexValue_digitChar (Nat.mod_lt value (by omega : 16 > 0))
      refine ⟨by rw [hdigit]; rfl, fun hcomma => ?_⟩
      rw [hcomma] at hdigit
      exact absurd hdigit nofun

theorem ofHex_append (text : List Char) (c : Char) :
    ofHex (text ++ [c]) = ofHex text * 16 + (hexValue c).getD 0 := by
  simp [ofHex]

theorem ofHex_hexDigits (width value : Nat) : ofHex (hexDigits width value) = value % 16 ^ width := by
  induction width generalizing value with
  | zero => simp [hexDigits, ofHex, Nat.mod_one]
  | succ width ih =>
    rw [hexDigits, ofHex_append, ih, hexValue_digitChar (Nat.mod_lt _ (by omega)), Option.getD_some,
      Nat.pow_succ', Nat.mod_mul, Nat.mul_comm, Nat.add_comm]

theorem ofHex_hexDigits_toNat (value : UInt64) :
    UInt64.ofNat (ofHex (hexDigits 16 value.toNat)) = value := by
  rw [ofHex_hexDigits, Nat.mod_eq_of_lt (by simpa using value.toNat_lt), UInt64.ofNat_toNat]

/-- A decimal numeral of more than one digit does not begin with a zero. -/
theorem head?_toDigits {value : Nat} (h : 0 < value) : (Nat.toDigits 10 value).head? ≠ some '0' := by
  induction value using Nat.strong_induction_on with
  | _ value ih =>
    rw [Nat.toDigits_eq_if (by omega)]
    split_ifs with hsmall
    · rw [head?_cons, ne_eq, Option.some.injEq, Nat.digitChar_eq_zero]
      omega
    · rw [head?_append_of_ne_nil _ Nat.toDigits_ne_nil]
      exact ih (value / 10) (by omega) (by omega)

theorem unsigned_decimal (value : UInt64) : unsigned (decimal value) = .ok value := by
  have hlt : value.toNat < 2 ^ 64 := value.toNat_lt
  have hlength : (decimal value).length ≤ 20 :=
    (Nat.length_toDigits_le_iff (by omega) (by omega)).mpr (by omega)
  have hdigits : (decimal value).all Char.isDigit = true :=
    all_eq_true.mpr fun c hc => Nat.isDigit_of_mem_toDigits (by omega) (by omega) hc
  have hzero : (decide ((decimal value).length > 1) && (decimal value).head? == some '0') = false := by
    rcases Nat.eq_zero_or_pos value.toNat with hvalue | hvalue
    · rw [decimal, hvalue, Nat.toDigits_zero]
      rfl
    · rw [decimal, beq_eq_false_iff_ne.mpr (head?_toDigits hvalue), Bool.and_false]
  have hempty : (decimal value).isEmpty = false := by
    rw [isEmpty_eq_false_iff]
    exact Nat.toDigits_ne_nil
  have hread : Nat.ofDigitChars 10 (decimal value) 0 = value.toNat := Nat.ofDigitChars_ten_toDigits
  unfold unsigned
  rw [hempty, hdigits, hzero, hread, decide_eq_false (by omega : ¬(decimal value).length > 20)]
  dsimp only
  rw [decide_eq_false (by omega : ¬value.toNat ≥ 2 ^ 64), UInt64.ofNat_toNat]
  rfl

/-! ## Scopes -/

variable {state : BTreeSet UInt64 × Option UInt64}

theorem parseItem_hexDigits {value : UInt64} (hprevious : ∀ previous ∈ state.2, previous < value)
    (hsize : state.1.size < maxScopeOrdinals) :
    parseItem state (hexDigits 16 value.toNat) = .ok (state.1.insert value, some value) := by
  have hhex : ((hexDigits 16 value.toNat).all fun c => (hexValue c).isSome) = true :=
    all_eq_true.mpr fun c hc => (hexValue_of_mem_hexDigits hc).1
  have hlast : (state.2.any fun previous => decide (previous ≥ value)) = false := by
    cases hstate : state.2 with
    | none => rfl
    | some previous =>
      exact decide_eq_false (UInt64.not_le.mpr (hprevious previous hstate))
  unfold parseItem
  rw [hhex, length_hexDigits, ofHex_hexDigits_toNat]
  dsimp only
  rw [hlast, decide_eq_false (by omega : ¬state.1.size ≥ maxScopeOrdinals)]
  rfl

/-- The loop reads an increasing list of ordinals back. -/
theorem foldlM_parseItem_hexDigits {values : List UInt64} (hsorted : values.Pairwise (· < ·))
    (hprevious : ∀ previous ∈ state.2, ∀ value ∈ values, previous < value)
    (hsize : state.1.size + values.length ≤ maxScopeOrdinals) :
    ∃ last, (values.map fun value => hexDigits 16 value.toNat).foldlM parseItem state =
      .ok (values.foldl (fun set value => set.insert value) state.1, last) := by
  induction values generalizing state with
  | nil => exact ⟨state.2, rfl⟩
  | cons value values ih =>
    rw [pairwise_cons] at hsorted
    rw [length_cons] at hsize
    have hinsert := Std.ExtTreeSet.size_insert_le (t := state.1) (k := value)
    obtain ⟨last, hlast⟩ := @ih (state.1.insert value, some value) hsorted.2
      (fun previous hp later hlater => by
        obtain rfl := Option.some.inj hp
        exact hsorted.1 later hlater)
      (by simp only; omega)
    refine ⟨last, ?_⟩
    rw [map_cons, foldlM_cons, parseItem_hexDigits
      (fun previous hp => hprevious previous hp value mem_cons_self) (by omega)]
    exact hlast

theorem pairwise_lt_toList (values : BTreeSet UInt64) : values.toList.Pairwise (· < ·) :=
  Std.ExtTreeSet.ordered_toList.imp fun h => Std.compare_eq_lt.mp h

theorem parseScope_encodeScope {scope : Scope UInt64} {text : List Char}
    (h : encodeScope scope = .ok text) : parseScope text = .ok scope := by
  obtain ⟨_, hvalid, h⟩ := bind_eq_ok.mp h
  cases scope with
  | all =>
    obtain rfl := ok.inj h
    rfl
  | only values =>
    have hsize : ¬values.size > maxScopeOrdinals := of_decide_eq_false (refuse_eq_ok.mp hvalid)
    simp only [if_neg hsize] at h
    by_cases hempty : values.isEmpty = true
    · rw [if_pos hempty] at h
      obtain rfl := ok.inj h
      obtain rfl := Std.ExtTreeSet.isEmpty_iff.mp hempty
      rfl
    · rw [if_neg hempty] at h
      obtain rfl := ok.inj h
      have hne : values.toList ≠ [] := fun hnil =>
        hempty (by rw [← Std.ExtTreeSet.isEmpty_toList, hnil]; rfl)
      set items := values.toList.map fun value => hexDigits 16 value.toNat with hitems
      have hsplit : ([','].intercalate items).splitOn ',' = items := by
        refine splitOn_intercalate _ ?_ (by simpa [hitems] using hne)
        intro item hitem hcomma
        obtain ⟨value, -, rfl⟩ := mem_map.mp hitem
        exact (hexValue_of_mem_hexDigits hcomma).2 rfl
      have hlong : ∀ c : Char, [','].intercalate items ≠ [c] := by
        intro c hc
        have hone := hsplit
        rw [hc] at hone
        obtain ⟨value, hvalue⟩ := exists_mem_of_ne_nil _ hne
        have hmem : hexDigits 16 value.toNat ∈ items := mem_map_of_mem hvalue
        rw [← hone] at hmem
        have hle : ∀ item ∈ [c].splitOn ',', item.length ≤ 1 := by
          by_cases hcomma : c = ',' <;> simp [splitOn, splitOnP_cons_eq_if_modifyHead, hcomma]
        have := hle _ hmem
        rw [length_hexDigits] at this
        omega
      obtain ⟨last, hlast⟩ := @foldlM_parseItem_hexDigits (∅, none) values.toList
        (pairwise_lt_toList values) (fun previous hp => absurd hp (by simp))
        (by rw [Std.ExtTreeSet.length_toList]; simp only [Std.ExtTreeSet.size_empty]; omega)
      rw [parseScope, if_neg (hlong '*'), if_neg (hlong '-'), hsplit, hlast]
      refine congrArg (fun values => ok (Scope.only values)) (Std.ExtTreeSet.ext_mem fun a => ?_)
      rw [BTreeSet.mem_foldl_insert fun value => value]
      simp

theorem size_of_foldlM_parseItem {items : List (List Char)}
    {result : BTreeSet UInt64 × Option UInt64} (hsize : state.1.size ≤ maxScopeOrdinals)
    (h : items.foldlM parseItem state = .ok result) : result.1.size ≤ maxScopeOrdinals := by
  refine foldlM_keeps (fun _ state => state.1.size ≤ maxScopeOrdinals) ?_ hsize h
  intro item items state next _ hnext
  obtain ⟨_, -, hnext⟩ := bind_eq_ok.mp hnext
  obtain ⟨_, -, hnext⟩ := bind_eq_ok.mp hnext
  obtain ⟨_, hroom, hnext⟩ := bind_eq_ok.mp hnext
  obtain rfl := ok.inj hnext
  have hroom := of_decide_eq_false (refuse_eq_ok.mp hroom)
  exact Std.ExtTreeSet.size_insert_le.trans (by omega)

theorem size_of_parseScope {text : List Char} {values : BTreeSet UInt64}
    (h : parseScope text = .ok (.only values)) : values.size ≤ maxScopeOrdinals := by
  unfold parseScope at h
  split_ifs at h with hall hnone
  · cases h
  · obtain rfl := Scope.only.inj (ok.inj h)
    simp
  · obtain ⟨result, hresult, h⟩ := bind_eq_ok.mp h
    obtain rfl := Scope.only.inj (ok.inj h)
    exact size_of_foldlM_parseItem (by simp) hresult

/-! ## Restrictions -/

theorem custom_eq_ok {key value : List Char} {predicate : CaveatPredicate}
    (h : custom key value = .ok predicate) : predicate = .custom key value := by
  unfold custom at h
  split_ifs at h
  exact (ok.inj h).symm

theorem decodeRestriction_encodeRestriction {restriction : Restriction}
    {predicate : CaveatPredicate} (h : encodeRestriction restriction = .ok predicate) :
    decodeRestriction predicate = .ok restriction := by
  cases restriction with
  | branch name =>
    obtain ⟨_, hname, h⟩ := bind_eq_ok.mp h
    rw [custom_eq_ok h, decodeRestriction, if_pos rfl, hname]
    rfl
  | labels scope | relations scope | properties scope =>
    obtain ⟨text, htext, h⟩ := bind_eq_ok.mp h
    rw [custom_eq_ok h]
    change parseScope text >>= _ = _
    rw [parseScope_encodeScope htext]
    rfl
  | denyProperties keys =>
    obtain ⟨_, -, h⟩ := bind_eq_ok.mp h
    obtain ⟨text, htext, h⟩ := bind_eq_ok.mp h
    rw [custom_eq_ok h]
    show (do denyList (← parseScope text)) = _
    rw [parseScope_encodeScope htext]
    rfl
  | rights rights =>
    rw [custom_eq_ok h]
    show (do return Restriction.rights (← Rights.fromBits (← unsigned (decimal rights.bits)))) = _
    rw [unsigned_decimal]
    show (do return Restriction.rights (← Rights.fromBits rights.bits)) = _
    rw [Rights.fromBits_bits]
    rfl
  | maxNodes value | maxWork value | maxRows value =>
    rw [custom_eq_ok h]
    change unsigned (decimal value) >>= _ = _
    rw [unsigned_decimal]
    rfl
  | expiresBefore time | notBefore time =>
    obtain rfl := ok.inj h
    rfl

end FrankenGraph.Warden
