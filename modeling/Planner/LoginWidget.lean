import Mathlib.Data.List.Sort
import Planner.Lib.Fields
import Planner.Lib.OrdDict
import Planner.Patterns

/-! The login with Telegram's widget. The query of the callback carries the fields of
the account and a digest of all of them, one field a line. -/

namespace Planner

namespace CharTables

variable (U : CharTables)

/-- Digits with single underscores between them, 4300 at most. -/
def decimal (cs : List Char) : Option Nat :=
  let groups := cs.splitOn '_'
  if groups.all (fun ds => !ds.isEmpty && ds.all fun c => (U.digit c).isSome) ∧ groups.flatten.length ≤ 4300 then
    some (U.value groups.flatten)
  else none

/-- `int(text)`. -/
def toInt (text : String) : Option Int :=
  match stripChars text.toList with
  | '-' :: cs => (U.decimal cs).map fun n : Nat => -(n : Int)
  | '+' :: cs => (U.decimal cs).map Int.ofNat
  | cs => (U.decimal cs).map Int.ofNat

end CharTables

/-- What a login raises that is not about its input. -/
inductive LoginError
  /-- `compare_digest` takes no text outside ASCII. -/
  | type
  /-- No float is as large. -/
  | overflow
  deriving DecidableEq, Repr

/-- Seconds after which a payload is not accepted any more. -/
def authMaxAge : Int := 86400

/-- The clock counts microseconds. -/
def second : Int := 1000000

/-- From here on an integer rounds to no float. -/
def floatLimit : Nat := 2 ^ 1024 - 2 ^ 970

/-- The fields in the order of their keys, one a line, without the digest. -/
def checkString (data : OrdDict String String) : String :=
  "\n".intercalate (((data.entries.insertionSort fun a b => a.1 ≤ b.1).filter fun e => e.1 ≠ "hash").map fun e =>
    e.1 ++ "=" ++ e.2)

/-- `hexdigest` is the HMAC under the bot's token. The age is exact: floats of this
size are further apart than the clock is late. -/
def verifyTelegramLogin (U : CharTables) (hexdigest : String → String → String) (data : OrdDict String String)
    (botToken : String) (now : Int) : Except LoginError Bool :=
  match data.get? "hash" with
  | none => .ok false
  | some receivedHash =>
    if receivedHash = "" then .ok false
    else if !receivedHash.toList.all fun c => c.toNat < 128 then .error .type
    else if hexdigest botToken (checkString data) ≠ receivedHash then .ok false
    else
      match (data.get? "auth_date").bind U.toInt with
      | none => .ok false
      | some authDate =>
        if floatLimit ≤ authDate.natAbs then .error .overflow
        else .ok (now - authDate * second ≤ authMaxAge * second)

/-- A payload as Telegram signs it: names of fields are plain words, and no value
runs over a line. -/
structure CleanPayload (data : OrdDict String String) : Prop where
  key : ∀ k ∈ data.keys, '\n' ∉ k.toList ∧ '=' ∉ k.toList
  value : ∀ k v, data.get? k = some v → '\n' ∉ v.toList

namespace CharTables

variable {U : CharTables}

theorem not_mem_of_decimal {c : Char} (hc : U.digit c = none) (hne : c ≠ '_') {cs : List Char} {n : Nat}
    (h : U.decimal cs = some n) : c ∉ cs := by
  intro hmem
  have hcs : List.intercalate ['_'] (cs.splitOn '_') = cs := List.intercalate_splitOn '_'
  rw [← hcs] at hmem
  obtain ⟨ds, hds, hcds⟩ := (Fields.of_mem_intercalate hmem).resolve_left hne
  simp only [decimal] at h
  split at h
  · rename_i hall
    have hdigits := List.all_eq_true.mp hall.1 ds hds
    simp only [Bool.and_eq_true] at hdigits
    have := List.all_eq_true.mp hdigits.2 c hcds
    rw [hc] at this
    cases this
  · cases h

theorem mem_stripChars {c : Char} (hc : isSpace c = false) {cs : List Char} (h : c ∈ cs) : c ∈ stripChars cs := by
  have hfront : ∀ cs : List Char, c ∈ cs → c ∈ cs.dropWhile isSpace := by
    intro cs hcs
    induction cs with
    | nil => cases hcs
    | cons d ds ih =>
      by_cases hd : isSpace d = true
      · rw [List.dropWhile_cons_of_pos hd]
        rcases List.mem_cons.mp hcs with rfl | hcs
        · rw [hc] at hd
          cases hd
        · exact ih hcs
      · rw [List.dropWhile_cons_of_neg hd]
        exact hcs
  rw [stripChars, List.mem_reverse]
  exact hfront _ (List.mem_reverse.mpr (hfront cs h))

theorem not_mem_of_toInt {c : Char} (hc : U.digit c = none) (hne : c ≠ '_') (hplain : isSpace c = false ∧ c ≠ '-' ∧ c ≠ '+')
    {text : String} {n : Int} (h : U.toInt text = some n) : c ∉ text.toList := by
  intro hmem
  have hstrip := mem_stripChars hplain.1 hmem
  rw [toInt] at h
  split at h
  · rename_i cs heq
    rw [heq] at hstrip
    obtain ⟨m, hm, -⟩ := Option.map_eq_some_iff.mp h
    exact not_mem_of_decimal hc hne hm ((List.mem_cons.mp hstrip).resolve_left hplain.2.1)
  · rename_i cs heq
    rw [heq] at hstrip
    obtain ⟨m, hm, -⟩ := Option.map_eq_some_iff.mp h
    exact not_mem_of_decimal hc hne hm ((List.mem_cons.mp hstrip).resolve_left hplain.2.2)
  · obtain ⟨m, hm, -⟩ := Option.map_eq_some_iff.mp h
    exact not_mem_of_decimal hc hne hm hstrip

end CharTables

section CheckString

variable {data : OrdDict String String}

/-- The lines of the check string, taken apart. -/
def signedFields (data : OrdDict String String) : List (List Char × List Char) :=
  ((data.entries.insertionSort fun a b => a.1 ≤ b.1).filter fun e => e.1 ≠ "hash").map fun e =>
    (e.1.toList, e.2.toList)

theorem checkString_toList (data : OrdDict String String) :
    (checkString data).toList = Fields.join '\n' '=' (signedFields data) := by
  simp only [checkString, signedFields, Fields.join, String.toList_intercalate, List.map_map]
  congr 2
  funext e
  simp [Fields.field]

theorem mem_signedFields {k v : String} :
    (k.toList, v.toList) ∈ signedFields data ↔ k ≠ "hash" ∧ data.get? k = some v := by
  simp only [signedFields, List.mem_map, List.mem_filter, List.mem_insertionSort, Prod.mk.injEq, String.toList_inj,
    OrdDict.get?_eq_some_iff, decide_eq_true_eq]
  constructor
  · rintro ⟨e, ⟨he, hhash⟩, rfl, rfl⟩
    exact ⟨hhash, he⟩
  · rintro ⟨hhash, he⟩
    exact ⟨_, ⟨he, hhash⟩, rfl, rfl⟩

theorem CleanPayload.fields (h : CleanPayload data) : Fields.Clean '\n' '=' (signedFields data) := by
  have hentry : ∀ f ∈ signedFields data, ∃ k v, data.get? k = some v ∧ f = (k.toList, v.toList) := by
    intro f hf
    obtain ⟨e, he, rfl⟩ := List.mem_map.mp hf
    have hmem := (List.mem_insertionSort _).mp (List.mem_of_mem_filter he)
    exact ⟨e.1, e.2, OrdDict.get?_eq_some_iff.mpr hmem, rfl⟩
  constructor
  all_goals
    intro f hf
    obtain ⟨k, v, hkv, rfl⟩ := hentry f hf
  · exact (h.key k (OrdDict.mem_keys.mpr (hkv ▸ rfl))).1
  · exact (h.key k (OrdDict.mem_keys.mpr (hkv ▸ rfl))).2
  · exact h.value k v hkv

/-- A number that a payload shows under a plain key is the one that was signed. -/
theorem number_signed {U : CharTables} (hU : U.digit '=' = none) {signed : OrdDict String String}
    (hclean : CleanPayload signed) (h : checkString data = checkString signed) {key : String} (hhash : key ≠ "hash")
    (hkey : '\n' ∉ key.toList ∧ '=' ∉ key.toList) {n : Int} (hn : (data.get? key).bind U.toInt = some n) :
    (signed.get? key).bind U.toInt = some n := by
  obtain ⟨v, hv, hnv⟩ := Option.bind_eq_some_iff.mp hn
  have hjoin : Fields.join '\n' '=' (signedFields data) = Fields.join '\n' '=' (signedFields signed) := by
    rw [← checkString_toList, ← checkString_toList, h]
  have hmem := mem_signedFields.mpr ⟨hhash, hv⟩
  rcases Fields.value_of_join_eq (by decide) hclean.fields hjoin hmem hkey.1 hkey.2 with hsame | hlong
  · rw [(mem_signedFields.mp hsame).2]
    exact hnv
  · exact absurd hlong (CharTables.not_mem_of_toInt hU (by decide) (by decide) hnv)

end CheckString

section Verify

variable {U : CharTables} {hexdigest : String → String → String} {data : OrdDict String String} {botToken : String}
  {now : Int}

theorem verifyTelegramLogin_true (h : verifyTelegramLogin U hexdigest data botToken now = .ok true) :
    data.get? "hash" = some (hexdigest botToken (checkString data)) ∧
      ∃ authDate, (data.get? "auth_date").bind U.toInt = some authDate ∧
        now - authDate * second ≤ authMaxAge * second := by
  unfold verifyTelegramLogin at h
  split at h
  · cases h
  · rename_i receivedHash hhash
    split at h
    · cases h
    · split at h
      · cases h
      · split at h
        · cases h
        · rename_i hdigest
          split at h
          · cases h
          · rename_i authDate hdate
            split at h
            · cases h
            · exact ⟨by rw [hhash, not_not.mp hdigest], authDate, hdate, of_decide_eq_true (Except.ok.inj h)⟩

end Verify

def widgetToken : String := "110201543:widget"

/-- The digest of one payload; no other is asked for. -/
def widgetDigest (botToken check : String) : String :=
  if botToken = widgetToken ∧ check = "auth_date=1700000000\nid=42" then
    "850a1d62420d04fef8b769a52acfc5a66c8a94bfaadc5e9ad2b1d863ad70a576"
  else ""

def widgetPayload : OrdDict String String := .ofList [("id", "42"), ("auth_date", "1700000000")]

def widgetQuery : OrdDict String String :=
  .ofList [("id", "42"), ("auth_date", "1700000000"),
    ("hash", "850a1d62420d04fef8b769a52acfc5a66c8a94bfaadc5e9ad2b1d863ad70a576")]

theorem widgetPayload_clean : CleanPayload widgetPayload where
  key := by decide
  value := by
    intro k v h
    rw [OrdDict.get?_eq_some_iff] at h
    have hall : ∀ e ∈ widgetPayload.entries, '\n' ∉ e.2.toList := by decide
    exact hall _ h

theorem widgetDigest_signed (check : String) (h : widgetQuery.get? "hash" = some (widgetDigest widgetToken check)) :
    checkString widgetPayload = check := by
  unfold widgetDigest at h
  split at h
  · rename_i hcheck
    rw [hcheck.2]
    decide
  · exact absurd h (by decide)

/-- A name that runs over a line would let its owner in under another id. -/
example :
    let named : OrdDict String String := .ofList [("auth_date", "5"), ("first_name", "x\nid=9"), ("id", "42"), ("last_name", "z")]
    let taken : OrdDict String String := .ofList [("auth_date", "5"), ("first_name", "x"), ("id", "9"), ("id=42\nlast_name", "z")]
    checkString taken = checkString named ∧ taken.get? "id" ≠ named.get? "id" := by decide

end Planner
