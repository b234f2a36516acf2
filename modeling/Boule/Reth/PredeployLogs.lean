import Boule.Lib.Cursor
import Boule.Lib.Hex
import Boule.Reth.Execution

/-! Commands in the event logs of the predeploys: from the JSON of the execution node to the bytes
that a contract has emitted. -/
namespace Boule
open Framing KeyScan Reading

/-- `serde_json::Value` -/
inductive JsonValue where
  | null
  | bool (b : Bool)
  | number (text : String)
  | string (s : String)
  | array (elements : List JsonValue)
  | object (fields : List (String × JsonValue))

namespace JsonValue

def asArray : JsonValue → Option (List JsonValue)
  | array elements => some elements
  | _ => none

def asStr : JsonValue → Option String
  | string s => some s
  | _ => none

/-- `value[key]` -/
def index (v : JsonValue) (key : String) : JsonValue :=
  match v with
  | object fields => ((fields.find? (·.1 = key)).map Prod.snd).getD .null
  | _ => .null

end JsonValue

namespace PredeployLog

/-- How the data of a log are given up: nothing is returned, or a slice panics. -/
inductive Stop where
  | rejected
  | panicked
  deriving DecidableEq

def toAsciiLowercase (s : String) : String := String.ofList (s.toList.map Char.toLower)

/-- `&bytes[start..stop]` -/
def slice (bytes : Bytes) (start stop : ℕ) : Except Stop Bytes :=
  if start ≤ stop ∧ stop ≤ bytes.length then .ok ((bytes.drop start).take (stop - start))
  else .error .panicked

/-- `copy_from_slice` panics on another length; a `usize` has 64 bits. -/
def wordToUsize (word : Bytes) : Except Stop ℕ := do
  let high ← slice word 0 24
  require (high.all (· = 0)) .rejected
  let low ← slice word 24 32
  require (low.length = 8) .panicked
  return fromBigEndian low

/-- `decode_abi_bytes`, from the bytes on. -/
def readAbiBytes (raw : Bytes) : Except Stop Bytes := do
  require (64 ≤ raw.length) .rejected
  let offset ← slice raw 0 32 >>= wordToUsize
  require (offset = 32) .rejected
  let len ← slice raw 32 64 >>= wordToUsize
  let stop ← okOr (checkedAddU64 64 len) .rejected
  require (stop ≤ raw.length) .rejected
  slice raw 64 stop

def decodeAbiBytes (data : String) : Except Stop Bytes :=
  okOr (Hex.decode (Hex.trimPrefixes data.toList)) .rejected >>= readAbiBytes

/-- `None` adds nothing. -/
def pushDecoded (out : List Bytes) : Except Stop Bytes → Except Stop (List Bytes)
  | .ok cmd => .ok (out ++ [cmd])
  | .error .rejected => .ok out
  | .error .panicked => .error .panicked

/-- The body of the loop of `parse_command_logs`. -/
def pushCommand (want : String) (out : List Bytes) (log : JsonValue) : Except Stop (List Bytes) :=
  match (log.index "topics").asArray with
  | none => .ok out
  | some topics =>
    if (topics.head?.bind JsonValue.asStr).map toAsciiLowercase ≠ some want then .ok out
    else pushDecoded out (decodeAbiBytes ((log.index "data").asStr.getD ""))

def parseCommandLogs (logs : JsonValue) (topic : String) : Except Stop (List Bytes) :=
  match logs.asArray with
  | none => .ok []
  | some arr => arr.foldlM (pushCommand (toAsciiLowercase topic)) []

/-! ### What is accepted -/

/-- The ABI encoding of one dynamic bytes argument. -/
def abiEncode (c : Bytes) : Bytes :=
  bigEndian 32 32 ++ bigEndian 32 c.length ++ c ++ List.replicate ((32 - c.length % 32) % 32) 0

/-- The first topic of a log, in either case. -/
def HasTopic (topic : String) (log : JsonValue) : Prop :=
  ∃ first rest, log.index "topics" = .array (.string first :: rest) ∧
    toAsciiLowercase first = toAsciiLowercase topic

/-- After the offset and the length the command is there; what follows it is not read. -/
def Carries (data : String) (c : Bytes) : Prop :=
  64 + c.length < 2 ^ 64 ∧ ∃ rest, Hex.decode (Hex.trimPrefixes data.toList) =
    some (bigEndian 32 32 ++ bigEndian 32 c.length ++ c ++ rest)

theorem bigEndian_add (a b n : ℕ) :
    bigEndian (a + b) n = bigEndian a (n / 256 ^ b) ++ bigEndian b n := by
  induction a with
  | zero => rw [Nat.zero_add]; rfl
  | succ a ih =>
    have hdiv : n / 256 ^ (a + b) = n / 256 ^ b / 256 ^ a := by
      rw [Nat.div_div_eq_div_mul, ← pow_add, Nat.add_comm b]
    rw [Nat.succ_add, bigEndian, bigEndian, ih, hdiv, List.cons_append]

theorem bigEndian_zero (width : ℕ) : bigEndian width 0 = List.replicate width 0 := by
  induction width with
  | zero => rfl
  | succ width ih =>
    rw [bigEndian, ih, Nat.zero_div]
    rfl

theorem slice_append (before bytes after : Bytes) {start stop : ℕ} (hstart : start = before.length)
    (hstop : stop = before.length + bytes.length) :
    slice (before ++ bytes ++ after) start stop = .ok bytes := by
  have hinside : start ≤ stop ∧ stop ≤ (before ++ bytes ++ after).length := by
    rw [List.length_append, List.length_append]
    omega
  have hlen : stop - start = bytes.length := by omega
  rw [slice, if_pos hinside, List.append_assoc, hstart, List.drop_left, ← hstart, hlen,
    List.take_left]

theorem wordToUsize_append {high low : Bytes} (hhigh : high.length = 24) (hlow : low.length = 8) :
    wordToUsize (high ++ low) =
      if high.all (· = 0) then .ok (fromBigEndian low) else .error .rejected := by
  have hfirst : slice (high ++ low) 0 24 = .ok high := by
    have h : slice ([] ++ high ++ low) 0 24 = .ok high :=
      slice_append [] high low rfl (by rw [hhigh]; rfl)
    rwa [List.nil_append] at h
  have hlast : slice (high ++ low) 24 32 = .ok low := by
    have h : slice (high ++ low ++ []) 24 32 = .ok low :=
      slice_append high low [] hhigh.symm (by rw [hhigh, hlow])
    rwa [List.append_nil] at h
  unfold wordToUsize
  rw [hfirst, hlast]
  cases hall : high.all (· = 0) with
  | false =>
    show (require (high.all (· = 0)) Stop.rejected >>= fun _ => _) = _
    rw [hall]
    rfl
  | true =>
    show (require (high.all (· = 0)) Stop.rejected >>= fun _ =>
      require (low.length = 8) Stop.panicked >>= fun _ => .ok (fromBigEndian low)) = _
    rw [hall, hlow]
    rfl

/-- A word is 24 bytes and the eight of a number. -/
theorem length_parts {word : Bytes} (hlen : word.length = 32) :
    (word.take 24).length = 24 ∧ (word.drop 24).length = 8 := by
  constructor
  · rw [List.length_take]
    omega
  · rw [List.length_drop]
    omega

/-- A word is read as the number that it encodes, if that has 64 bits. -/
theorem wordToUsize_eq_ok {word : Bytes} (hlen : word.length = 32) {n : ℕ} :
    wordToUsize word = .ok n ↔ n < 2 ^ 64 ∧ word = bigEndian 32 n := by
  constructor
  · intro h
    obtain ⟨hhigh, hlow⟩ := length_parts hlen
    rw [← List.take_append_drop 24 word, wordToUsize_append hhigh hlow] at h
    split_ifs at h with hall
    obtain rfl := Except.ok.inj h
    have hlt := fromBigEndian_lt (word.drop 24)
    have hbytes := bigEndian_fromBigEndian (word.drop 24)
    rw [hlow] at hlt hbytes
    have hzeros : word.take 24 = List.replicate 24 0 := by
      refine List.eq_replicate_iff.mpr ⟨hhigh, fun b hb => ?_⟩
      exact of_decide_eq_true (List.all_eq_true.mp hall b hb)
    have hadd := bigEndian_add 24 8 (fromBigEndian (word.drop 24))
    rw [Nat.div_eq_of_lt hlt, bigEndian_zero, hbytes, ← hzeros, List.take_append_drop] at hadd
    exact ⟨hlt, hadd.symm⟩
  · rintro ⟨hlt, rfl⟩
    have hlt8 : n < 256 ^ 8 := hlt
    have hadd := bigEndian_add 24 8 n
    rw [Nat.div_eq_of_lt hlt8, bigEndian_zero] at hadd
    have hhigh : (List.replicate 24 (0 : UInt8)).length = 24 := List.length_replicate
    have hread := wordToUsize_append hhigh (length_bigEndian 8 n)
    rw [fromBigEndian_bigEndian hlt8] at hread
    rw [hadd]
    exact hread

theorem wordToUsize_safe {word : Bytes} (hlen : word.length = 32) :
    wordToUsize word = .error .rejected ∨ ∃ n, wordToUsize word = .ok n := by
  obtain ⟨hhigh, hlow⟩ := length_parts hlen
  rw [← List.take_append_drop 24 word, wordToUsize_append hhigh hlow]
  split_ifs with hall
  · exact .inr ⟨_, rfl⟩
  · exact .inl rfl

/-- What follows both words, cut off at the length that the second one declares. -/
def declaredBytes (len : ℕ) (rest : Bytes) : Except Stop Bytes :=
  if 64 + len < 2 ^ 64 ∧ len ≤ rest.length then .ok (rest.take len) else .error .rejected

theorem readAbiBytes_append {offset len rest : Bytes} (hoffset : offset.length = 32)
    (hlen : len.length = 32) :
    readAbiBytes (offset ++ len ++ rest) = (do
      let o ← wordToUsize offset
      require (o = 32) .rejected
      let n ← wordToUsize len
      declaredBytes n rest) := by
  have hraw : (offset ++ len ++ rest).length = 64 + rest.length := by
    rw [List.length_append, List.length_append, hoffset, hlen]
  have hfirst : slice (offset ++ len ++ rest) 0 32 = .ok offset := by
    have h : slice ([] ++ offset ++ (len ++ rest)) 0 32 = .ok offset :=
      slice_append [] offset (len ++ rest) rfl (by rw [hoffset]; rfl)
    rwa [List.nil_append, ← List.append_assoc] at h
  have hsecond : slice (offset ++ len ++ rest) 32 64 = .ok len :=
    slice_append offset len rest hoffset.symm (by rw [hoffset, hlen])
  have hlong : require (64 ≤ (offset ++ len ++ rest).length) Stop.rejected = .ok () :=
    require_eq_ok.mpr (decide_eq_true (by omega))
  have hdata : ∀ n, (do
      let stop ← okOr (checkedAddU64 64 n) Stop.rejected
      require (stop ≤ (offset ++ len ++ rest).length) .rejected
      slice (offset ++ len ++ rest) 64 stop) = declaredBytes n rest := by
    intro n
    unfold declaredBytes checkedAddU64
    by_cases hover : 64 + n < 2 ^ 64
    · rw [if_pos hover]
      show require (64 + n ≤ (offset ++ len ++ rest).length) Stop.rejected >>=
        (fun _ => slice (offset ++ len ++ rest) 64 (64 + n)) = _
      by_cases hinside : n ≤ rest.length
      · have henough : require (64 + n ≤ (offset ++ len ++ rest).length) Stop.rejected = .ok () :=
          require_eq_ok.mpr (decide_eq_true (by omega))
        have hpre : 64 = (offset ++ len).length := by rw [List.length_append, hoffset, hlen]
        have hcut : 64 + n = (offset ++ len).length + (rest.take n).length := by
          rw [← hpre, List.length_take, Nat.min_eq_left hinside]
        have h := slice_append (offset ++ len) (rest.take n) (rest.drop n) hpre hcut
        rw [List.append_assoc, List.take_append_drop] at h
        rw [henough, if_pos ⟨hover, hinside⟩]
        exact h
      · have hshort : decide (64 + n ≤ (offset ++ len ++ rest).length) = false :=
          decide_eq_false (by omega)
        rw [hshort, if_neg fun h => hinside h.2]
        rfl
    · rw [if_neg hover, if_neg fun h => hover h.1]
      rfl
  unfold readAbiBytes
  rw [hlong, hfirst, hsecond]
  show (wordToUsize offset >>= fun o => require (o = 32) Stop.rejected >>= fun _ =>
    wordToUsize len >>= fun n => _) = _
  simp only [hdata]

/-- Two words and what follows them. -/
theorem words_of_length {raw : Bytes} (h : 64 ≤ raw.length) : ∃ offset len rest : Bytes,
    offset.length = 32 ∧ len.length = 32 ∧ raw = offset ++ len ++ rest := by
  refine ⟨raw.take 32, (raw.drop 32).take 32, raw.drop 64, ?_, ?_, ?_⟩
  · rw [List.length_take]
    omega
  · rw [List.length_take, List.length_drop]
    omega
  · have hdrop : raw.drop 64 = (raw.drop 32).drop 32 := by rw [List.drop_drop]
    rw [hdrop, List.append_assoc, List.take_append_drop, List.take_append_drop]

theorem readAbiBytes_short {raw : Bytes} (h : raw.length < 64) :
    readAbiBytes raw = .error .rejected := by
  have hshort : decide (64 ≤ raw.length) = false := decide_eq_false (by omega)
  unfold readAbiBytes
  rw [hshort]
  rfl

theorem readAbiBytes_safe (raw : Bytes) : readAbiBytes raw ≠ .error .panicked := by
  by_cases hlong : 64 ≤ raw.length
  · obtain ⟨offset, len, rest, hoffset, hlen, rfl⟩ := words_of_length hlong
    rw [readAbiBytes_append hoffset hlen]
    rcases wordToUsize_safe hoffset with hbad | ⟨o, ho⟩
    · rw [hbad]
      intro h
      cases h
    · rw [ho]
      show (require (o = 32) Stop.rejected >>= fun _ => wordToUsize len >>= _) ≠ _
      by_cases h32 : o = 32
      · rw [decide_eq_true h32]
        show (wordToUsize len >>= fun n => declaredBytes n rest) ≠ _
        rcases wordToUsize_safe hlen with hbad | ⟨n, hn⟩
        · rw [hbad]
          intro h
          cases h
        · rw [hn]
          show declaredBytes n rest ≠ _
          unfold declaredBytes
          split_ifs
          · intro h
            cases h
          · intro h
            cases h
      · rw [decide_eq_false h32]
        intro h
        cases h
  · rw [readAbiBytes_short (by omega)]
    intro h
    cases h

theorem readAbiBytes_eq_ok {raw c : Bytes} :
    readAbiBytes raw = .ok c ↔ 64 + c.length < 2 ^ 64 ∧
      ∃ rest, raw = bigEndian 32 32 ++ bigEndian 32 c.length ++ c ++ rest := by
  constructor
  · intro h
    by_cases hlong : 64 ≤ raw.length
    · obtain ⟨offset, len, rest, hoffset, hlen, rfl⟩ := words_of_length hlong
      rw [readAbiBytes_append hoffset hlen] at h
      obtain ⟨o, ho, hafter⟩ := bind_eq_ok.mp h
      obtain ⟨_, h32, hafter⟩ := bind_eq_ok.mp hafter
      obtain ⟨n, hn, hdata⟩ := bind_eq_ok.mp hafter
      obtain rfl : o = 32 := of_decide_eq_true (require_eq_ok.mp h32)
      obtain ⟨-, rfl⟩ := (wordToUsize_eq_ok hoffset).mp ho
      obtain ⟨-, rfl⟩ := (wordToUsize_eq_ok hlen).mp hn
      unfold declaredBytes at hdata
      split_ifs at hdata with hdeclared
      obtain rfl := Except.ok.inj hdata
      have hlength : (rest.take n).length = n := by
        rw [List.length_take, Nat.min_eq_left hdeclared.2]
      rw [hlength]
      refine ⟨hdeclared.1, rest.drop n, ?_⟩
      rw [List.append_assoc _ (rest.take n), List.take_append_drop]
    · rw [readAbiBytes_short (by omega)] at h
      cases h
  · rintro ⟨hover, rest, rfl⟩
    have hoffset := length_bigEndian 32 32
    have hlen := length_bigEndian 32 c.length
    have ho : wordToUsize (bigEndian 32 32) = .ok 32 :=
      (wordToUsize_eq_ok hoffset).mpr ⟨by norm_num, rfl⟩
    have hn : wordToUsize (bigEndian 32 c.length) = .ok c.length :=
      (wordToUsize_eq_ok hlen).mpr ⟨by omega, rfl⟩
    have hinside : c.length ≤ (c ++ rest).length := by
      rw [List.length_append]
      omega
    rw [List.append_assoc _ c, readAbiBytes_append hoffset hlen, ho, hn]
    show declaredBytes c.length (c ++ rest) = .ok c
    rw [declaredBytes, if_pos ⟨hover, hinside⟩, List.take_left]

theorem decodeAbiBytes_safe (data : String) : decodeAbiBytes data ≠ .error .panicked := by
  unfold decodeAbiBytes
  cases Hex.decode (Hex.trimPrefixes data.toList) with
  | none =>
    intro h
    cases h
  | some raw => exact readAbiBytes_safe raw

theorem decodeAbiBytes_eq_ok {data : String} {c : Bytes} :
    decodeAbiBytes data = .ok c ↔ Carries data c := by
  unfold decodeAbiBytes Carries
  rw [bind_eq_ok]
  simp only [okOr_eq_ok, readAbiBytes_eq_ok]
  constructor
  · rintro ⟨raw, hraw, hover, rest, rfl⟩
    exact ⟨hover, rest, hraw⟩
  · rintro ⟨hover, rest, hraw⟩
    exact ⟨_, hraw, hover, rest, rfl⟩

/-! ### Logs one by one -/

/-- A log of the topic whose data carries the command. -/
def Yields (topic : String) (log : JsonValue) (c : Bytes) : Prop :=
  HasTopic topic log ∧ ∃ data, log.index "data" = .string data ∧ Carries data c

theorem asArray_eq_some {v : JsonValue} {elements : List JsonValue} :
    v.asArray = some elements ↔ v = .array elements := by
  cases v <;> simp [JsonValue.asArray]

theorem asStr_eq_some {v : JsonValue} {s : String} : v.asStr = some s ↔ v = .string s := by
  cases v <;> simp [JsonValue.asStr]

theorem hasTopic_iff {topic : String} {log : JsonValue} : HasTopic topic log ↔
    ∃ topics, (log.index "topics").asArray = some topics ∧
      (topics.head?.bind JsonValue.asStr).map toAsciiLowercase = some (toAsciiLowercase topic) := by
  constructor
  · rintro ⟨first, rest, htopics, hfirst⟩
    refine ⟨.string first :: rest, asArray_eq_some.mpr htopics, ?_⟩
    exact congrArg some hfirst
  · rintro ⟨topics, htopics, hfirst⟩
    obtain ⟨first, hhead, hlower⟩ := Option.map_eq_some_iff.mp hfirst
    obtain ⟨value, hvalue, hstr⟩ := Option.bind_eq_some_iff.mp hhead
    obtain rfl := asStr_eq_some.mp hstr
    obtain ⟨rest, rfl⟩ := List.head?_eq_some_iff.mp hvalue
    exact ⟨first, rest, asArray_eq_some.mp htopics, hlower⟩

theorem not_carries_empty (c : Bytes) : ¬ Carries "" c := by
  intro h
  have hdecode := decodeAbiBytes_eq_ok.mpr h
  cases hdecode

theorem data_carries_iff {log : JsonValue} {c : Bytes} :
    Carries ((log.index "data").asStr.getD "") c ↔
      ∃ data, log.index "data" = .string data ∧ Carries data c := by
  constructor
  · intro h
    cases hdata : (log.index "data").asStr with
    | none =>
      rw [hdata] at h
      exact absurd h (not_carries_empty c)
    | some data =>
      rw [hdata] at h
      exact ⟨data, asStr_eq_some.mp hdata, h⟩
  · rintro ⟨data, hdata, h⟩
    rw [asStr_eq_some.mpr hdata]
    exact h

theorem pushDecoded_eq {decoded : Except Stop Bytes} (h : decoded ≠ .error .panicked)
    (out : List Bytes) : pushDecoded out decoded = .ok (out ++ decoded.toOption.toList) := by
  cases decoded with
  | ok cmd => rfl
  | error e =>
    cases e with
    | rejected => exact congrArg Except.ok (List.append_nil out).symm
    | panicked => exact absurd rfl h

/-- A log adds the command that it yields, or nothing. -/
theorem pushCommand_eq (topic : String) (log : JsonValue) : ∃ found : Option Bytes,
    (∀ c, found = some c ↔ Yields topic log c) ∧
      ∀ out, pushCommand (toAsciiLowercase topic) out log = .ok (out ++ found.toList) := by
  by_cases htopic : HasTopic topic log
  · obtain ⟨topics, htopics, hfirst⟩ := hasTopic_iff.mp htopic
    refine ⟨(decodeAbiBytes ((log.index "data").asStr.getD "")).toOption, ?_, ?_⟩
    · intro c
      rw [toOption_eq_some, decodeAbiBytes_eq_ok, data_carries_iff]
      exact (and_iff_right htopic).symm
    · intro out
      unfold pushCommand
      rw [htopics]
      show (if _ then _ else _) = _
      rw [if_neg (not_not_intro hfirst)]
      exact pushDecoded_eq (decodeAbiBytes_safe _) out
  · refine ⟨none, ?_, ?_⟩
    · intro c
      constructor
      · intro h
        cases h
      · intro h
        exact absurd h.1 htopic
    · intro out
      have hskip : pushCommand (toAsciiLowercase topic) out log = .ok out := by
        unfold pushCommand
        cases htopics : (log.index "topics").asArray with
        | none => rfl
        | some topics =>
          refine if_pos fun hfirst => htopic ?_
          exact hasTopic_iff.mpr ⟨topics, htopics, hfirst⟩
      rw [hskip]
      exact congrArg Except.ok (List.append_nil out).symm

/-- The loop over the logs, from what it has. -/
theorem foldlM_pushCommand (topic : String) (arr : List JsonValue) : ∃ found : List (Option Bytes),
    List.Forall₂ (fun log o => ∀ c, o = some c ↔ Yields topic log c) arr found ∧
      ∀ out, arr.foldlM (pushCommand (toAsciiLowercase topic)) out =
        .ok (out ++ found.flatMap Option.toList) := by
  induction arr with
  | nil =>
    refine ⟨[], .nil, fun out => ?_⟩
    exact congrArg Except.ok (List.append_nil out).symm
  | cons log arr ih =>
    obtain ⟨o, ho, hpush⟩ := pushCommand_eq topic log
    obtain ⟨found, hfound, hloop⟩ := ih
    refine ⟨o :: found, .cons ho hfound, fun out => ?_⟩
    rw [List.foldlM_cons, hpush]
    show arr.foldlM _ (out ++ o.toList) = _
    rw [hloop, List.flatMap_cons, List.append_assoc]

/-- `format!("0x{}", hex::encode(bytes))` -/
def hexString (bytes : Bytes) : String := "0x" ++ String.ofList (Hex.encode bytes)

theorem toList_hexString (bytes : Bytes) :
    (hexString bytes).toList = '0' :: 'x' :: Hex.encode bytes := by
  unfold hexString
  simp only [String.toList_append, String.toList_ofList]
  rfl

theorem decode_hexString (bytes : Bytes) :
    Hex.decode (Hex.trimPrefixes (hexString bytes).toList) = some bytes := by
  rw [toList_hexString, Hex.trimPrefixes_encode, Hex.decode_encode]

theorem carries_abiEncode {c : Bytes} (h : c.length ≤ isizeMax) :
    Carries (hexString (abiEncode c)) c := by
  have hmax : isizeMax < 2 ^ 63 := by decide
  exact ⟨by omega, _, decode_hexString (abiEncode c)⟩

theorem length_abiEncode (c : Bytes) : (abiEncode c).length % 32 = 0 := by
  unfold abiEncode
  simp only [List.length_append, length_bigEndian, List.length_replicate]
  omega

/-! ### The commands of the logs -/

/-- What a contract emits is read back as it is. Of any JSON the logs of the topic whose data begin
with an offset of 32 and a length that is there yield a command each, in their order, and the other
ones nothing. -/
theorem commands_from_logs (topic : String) :
    (∀ (c : Bytes) (log : JsonValue), c.length ≤ isizeMax → HasTopic topic log →
      log.index "data" = .string (hexString (abiEncode c)) →
        parseCommandLogs (.array [log]) topic = .ok [c]) ∧
    ∀ logs : JsonValue, ∃ found : List (Option Bytes),
      List.Forall₂ (fun log o => ∀ c, o = some c ↔ Yields topic log c) (logs.asArray.getD [])
          found ∧
        parseCommandLogs logs topic = .ok (found.flatMap Option.toList) := by
  constructor
  · intro c log hc htopic hdata
    obtain ⟨found, hfound, hpush⟩ := pushCommand_eq topic log
    obtain rfl := (hfound c).mpr ⟨htopic, _, hdata, carries_abiEncode hc⟩
    show [log].foldlM (pushCommand (toAsciiLowercase topic)) [] = _
    rw [List.foldlM_cons, hpush]
    rfl
  · intro logs
    obtain ⟨found, hfound, hloop⟩ := foldlM_pushCommand topic (logs.asArray.getD [])
    refine ⟨found, hfound, ?_⟩
    have hstart := hloop []
    rw [List.nil_append] at hstart
    rw [← hstart]
    unfold parseCommandLogs
    cases logs.asArray with
    | none => rfl
    | some arr => rfl

end PredeployLog

namespace Sample
open PredeployLog

def logWith (topic data : String) : JsonValue :=
  .object [("topics", .array [.string topic]), ("data", .string data)]

/-- The byte 7 after its words, without the zeros that fill its word up. -/
def unpaddedData : String := hexString (bigEndian 32 32 ++ bigEndian 32 1 ++ [7])

/-- The padding is not asked for. -/
theorem unpadded_command_accepted :
    PredeployLog.parseCommandLogs (.array [logWith "0xAB" unpaddedData]) "0xab" = .ok [[7]] ∧
      ¬ ∃ c, Hex.decode (Hex.trimPrefixes unpaddedData.toList) = some (abiEncode c) := by
  constructor
  · decide +kernel
  · rintro ⟨c, hc⟩
    have hraw := decode_hexString (bigEndian 32 32 ++ bigEndian 32 1 ++ [7])
    have heq := Option.some.inj (hraw.symm.trans hc)
    have hlen := length_abiEncode c
    rw [← heq] at hlen
    revert hlen
    decide

theorem emitted_command_read :
    PredeployLog.parseCommandLogs
        (.array [logWith "0xAB" (hexString (abiEncode [1, 2, 3]))]) "0xab" = .ok [[1, 2, 3]] :=
  (commands_from_logs "0xab").1 [1, 2, 3] (logWith "0xAB" (hexString (abiEncode [1, 2, 3])))
    (by decide) ⟨"0xAB", [], rfl, by decide⟩ rfl

end Sample
end Boule
