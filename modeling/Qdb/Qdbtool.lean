import Qdb.Lib.JsonText

/-!
# The JSON output of `qdbtool`

`json_str` writes a C string as a JSON string literal; `cmd_list` and
`cmd_stats` put such literals between fixed texts and decimal numbers.  Every
string is read back from the literal byte for byte, whatever follows it, and the
queue names are read back from both outputs.
-/

namespace Qdb
namespace Tool

open Lib

/-- The bytes of an ASCII text. -/
def text (s : String) : Bytes :=
  s.toList.map fun c => UInt8.ofNat c.toNat

/-- A digit of the conversion `x`. -/
def hexDigit (n : Nat) : UInt8 :=
  if n < 10 then UInt8.ofNat (48 + n) else UInt8.ofNat (87 + n)

/-- The conversion `%04x` of a byte. -/
def hex04 (c : UInt8) : Bytes :=
  [hexDigit (c.toNat / 4096 % 16), hexDigit (c.toNat / 256 % 16),
    hexDigit (c.toNat / 16 % 16), hexDigit (c.toNat % 16)]

/-- The conversion `%llu`. -/
def decimal (v : UInt64) : Bytes :=
  if v = 0 then [48]
  else (Nat.digits 10 v.toNat).reverse.map fun d => UInt8.ofNat (48 + d)

/-- The loop body of `json_str`. -/
def jsonByte (c : UInt8) : Bytes :=
  if c = 34 then text "\\\""
  else if c = 92 then text "\\\\"
  else if c = 10 then text "\\n"
  else if c = 13 then text "\\r"
  else if c = 9 then text "\\t"
  else if c < 32 then text "\\u" ++ hex04 c
  else [c]

/-- The loop of `json_str` and its closing quote, over the bytes in memory;
there is no result when no NUL byte ends the string. -/
def jsonStrLoop : Bytes → Option Bytes
  | [] => none
  | c :: s =>
      if c = 0 then some [34]
      else (jsonStrLoop s).map (jsonByte c ++ ·)

/-- `json_str` -/
def jsonStr (s : Bytes) : Option Bytes :=
  (jsonStrLoop s).map (34 :: ·)

/-- The elements of a JSON array with commas between them; `first` says that
none has been written yet. -/
def jsonItems : Bool → List (Option Bytes) → Option Bytes
  | _, [] => some []
  | first, x :: xs => do
      let item ← x
      let rest ← jsonItems false xs
      return (if first then [] else text ",") ++ item ++ rest

/-- A JSON array and the newline of `puts`. -/
def jsonArray (xs : List (Option Bytes)) : Option Bytes :=
  (jsonItems true xs).map fun t => text "[" ++ t ++ text "]\n"

/-- The output of `cmd_list` with `--json`. -/
def cmdListJson (names : List Bytes) : Option Bytes :=
  jsonArray (names.map jsonStr)

/-- Name and counters of a queue as `cmd_stats` has them. -/
structure QueueLine where
  /-- The name array in memory. -/
  name : Bytes
  pendingCount : UInt64
  leasedCount : UInt64
  ackedCount : UInt64

/-- The JSON object of `cmd_stats` for one queue. -/
def queueJson (q : QueueLine) : Option Bytes :=
  (jsonStr q.name).map fun t =>
    text "\x7b\"queue\":" ++ (t ++ (text ",\"pending\":" ++
      decimal q.pendingCount ++ text ",\"leased\":" ++
      decimal q.leasedCount ++ text ",\"acked\":" ++
      decimal q.ackedCount ++ text "\x7d"))

/-- The output of `cmd_stats` with `--json` for all queues. -/
def cmdStatsJson (qs : List QueueLine) : Option Bytes :=
  jsonArray (qs.map queueJson)

/-- The output of `cmd_stats` with `--json` for one queue. -/
def cmdStatsQueueJson (q : QueueLine) : Option Bytes :=
  (queueJson q).map (· ++ text "\n")

/-- What `cmd_info` prints. -/
structure InfoLine where
  /-- The path argument in memory. -/
  path : Bytes
  fileSizeBytes : UInt64
  queueCount : UInt64
  pendingCount : UInt64
  leasedCount : UInt64
  ackedCount : UInt64
  compactAdvised : Bool

/-- The output of `cmd_info` with `--json`. -/
def cmdInfoJson (l : InfoLine) : Option Bytes :=
  (jsonStr l.path).map fun t =>
    text "\x7b\"file\":" ++ (t ++ (text ",\"size_bytes\":" ++
      decimal l.fileSizeBytes ++ text ",\"queues\":" ++
      decimal l.queueCount ++ text ",\"pending\":" ++
      decimal l.pendingCount ++ text ",\"leased\":" ++
      decimal l.leasedCount ++ text ",\"acked\":" ++
      decimal l.ackedCount ++ text ",\"compact_advised\":" ++
      text (if l.compactAdvised then "true" else "false") ++
      text "\x7d\n"))

section Strings

/-- A NUL-free byte string. -/
def NulFree (s : Bytes) : Prop :=
  ∀ c ∈ s, c ≠ 0

theorem hexVal_hexDigit : ∀ n, n < 16 → hexVal (hexDigit n) = some n := by
  decide

theorem readHex4_hex04 (c : UInt8) (rest : Bytes) :
    readHex4 (hex04 c ++ rest) = some (c.toNat, rest) := by
  have hc := c.toNat_lt
  have h1 := hexVal_hexDigit (c.toNat / 4096 % 16) (by omega)
  have h2 := hexVal_hexDigit (c.toNat / 256 % 16) (by omega)
  have h3 := hexVal_hexDigit (c.toNat / 16 % 16) (by omega)
  have h4 := hexVal_hexDigit (c.toNat % 16) (by omega)
  have hsum : c.toNat / 4096 % 16 * 4096 + c.toNat / 256 % 16 * 256 +
      c.toNat / 16 % 16 * 16 + c.toNat % 16 = c.toNat := by
    omega
  simp only [hex04, List.cons_append, List.nil_append, readHex4, h1, h2, h3,
    h4, Option.bind_eq_bind, Option.bind_some, Option.pure_def, hsum]

/-- A control byte is escaped by its number. -/
theorem piece_unicode {c : UInt8} (hc : c < 32) :
    Piece c (text "\\u" ++ hex04 c) where
  body := by
    intro t ht
    have hhex : ∀ n, n < 16 → (hexVal (hexDigit n)).isSome := by
      decide
    refine Body.unicode ?_ ht
    intro x hx
    simp only [List.mem_cons, List.not_mem_nil, or_false] at hx
    rcases hx with rfl | rfl | rfl | rfl <;>
      exact hhex _ (Nat.mod_lt _ (by decide))
  head := ⟨92, _, rfl, by decide⟩
  read := by
    intro rest
    have hlt : c.toNat < 32 := UInt8.lt_iff_toNat_lt.mp hc
    change readUnicode (hex04 c ++ rest) = _
    unfold readUnicode
    rw [readHex4_hex04]
    simp only [Option.bind_eq_bind, Option.bind_some]
    rw [if_neg (by omega), if_neg (by omega), utf8, if_pos (by omega),
      UInt8.ofNat_toNat]
    rfl

theorem piece_short {c e : UInt8}
    (he : e ∈ [34, 92, 47, 98, 102, 110, 114, 116])
    (hread : ∀ rest, readEscape (e :: rest) = some ([c], rest)) :
    Piece c [92, e] :=
  ⟨fun ht => Body.short he ht, ⟨92, [e], rfl, by decide⟩, hread⟩

/-- Every byte is written as a piece of a literal. -/
theorem piece_jsonByte (c : UInt8) : Piece c (jsonByte c) := by
  unfold jsonByte
  split
  · next h =>
      subst h
      exact piece_short (by decide) fun _ => rfl
  split
  · next h =>
      subst h
      exact piece_short (by decide) fun _ => rfl
  split
  · next h =>
      subst h
      exact piece_short (by decide) fun _ => rfl
  split
  · next h =>
      subst h
      exact piece_short (by decide) fun _ => rfl
  split
  · next h =>
      subst h
      exact piece_short (by decide) fun _ => rfl
  split
  · next h =>
      exact piece_unicode h
  · next hquote hback _ _ _ hctrl =>
      refine ⟨fun ht => Body.plain (UInt8.not_lt.mp hctrl) hquote hback ht,
        ⟨c, [], rfl, hquote⟩, ?_⟩
      intro rest
      change (if c = 92 then readEscape rest
        else if c < 32 ∨ c = 34 then none else some ([c], rest)) = _
      rw [if_neg hback, if_neg (by
        rw [not_or]
        exact ⟨hctrl, hquote⟩)]

/-- What `json_str` writes for a string in front of its NUL byte. -/
theorem jsonStr_eq {s : Bytes} (hs : NulFree s) (mem : Bytes) :
    jsonStr (s ++ 0 :: mem) = some (34 :: (pieces jsonByte s ++ [34])) := by
  have hloop : jsonStrLoop (s ++ 0 :: mem) =
      some (pieces jsonByte s ++ [34]) := by
    induction s with
    | nil =>
        rfl
    | cons c s ih =>
        rw [List.cons_append, jsonStrLoop,
          if_neg (hs c (List.mem_cons_self ..)),
          ih fun x hx => hs x (List.mem_cons_of_mem c hx)]
        simp [pieces]
  rw [jsonStr, hloop]
  rfl

/-- The literal is read back as the string, whatever follows it. -/
theorem readString_jsonStr (s rest : Bytes) :
    readString (34 :: (pieces jsonByte s ++ [34]) ++ rest) =
      some (s, rest) := by
  rw [List.cons_append, List.append_assoc]
  exact Pieces.read (fun c _ => piece_jsonByte c) rest

end Strings

section Arrays

/-- The elements of an array up to its closing bracket. -/
def readItems (item : Bytes → Option (Bytes × Bytes)) :
    Nat → Bytes → Option (List Bytes)
  | 0, _ => none
  | fuel + 1, bs => do
      let (x, rest) ← item bs
      match rest with
      | [] => none
      | c :: rest =>
          if c = 44 then do
            let xs ← readItems item fuel rest
            return x :: xs
          else if c = 93 then return [x]
          else none

/-- A JSON array whose elements are read by `item`. -/
def readArray (item : Bytes → Option (Bytes × Bytes)) :
    Bytes → Option (List Bytes)
  | c :: d :: rest =>
      if c ≠ 91 then none
      else if d = 93 then some []
      else readItems item ((d :: rest).length + 1) (d :: rest)
  | _ => none

/-- The text `t` of an array element is read as `x`, whatever follows. -/
structure Item (item : Bytes → Option (Bytes × Bytes)) (t x : Bytes) :
    Prop where
  head : ∃ c rest, t = c :: rest ∧ c ≠ 93
  read : ∀ rest, item (t ++ rest) = some (x, rest)

variable {item : Bytes → Option (Bytes × Bytes)}

theorem readItems_jsonItems {texts xs : List Bytes}
    (h : List.Forall₂ (Item item) texts xs) {t x : Bytes}
    (hx : Item item t x) :
    ∃ out, jsonItems false (texts.map some) = some out ∧
      texts.length ≤ out.length ∧
      ∀ fuel, texts.length < fuel → ∀ rest,
        readItems item fuel (t ++ (out ++ 93 :: rest)) = some (x :: xs) := by
  induction h generalizing t x with
  | nil =>
      refine ⟨[], rfl, le_refl _, ?_⟩
      intro fuel hfuel rest
      obtain ⟨k, rfl⟩ := Nat.exists_eq_succ_of_ne_zero (by omega : fuel ≠ 0)
      unfold readItems
      rw [hx.read]
      rfl
  | @cons t' x' texts xs hx' hrest ih =>
      obtain ⟨out, hout, hlen, hread⟩ := ih hx'
      refine ⟨44 :: (t' ++ out), ?_, ?_, ?_⟩
      · rw [List.map_cons, jsonItems, hout]
        rfl
      · rw [List.length_cons, List.length_cons, List.length_append]
        omega
      · intro fuel hfuel rest
        rw [List.length_cons] at hfuel
        obtain ⟨k, rfl⟩ := Nat.exists_eq_succ_of_ne_zero (by omega : fuel ≠ 0)
        have hk := hread k (by omega) rest
        unfold readItems
        rw [hx.read]
        simp only [List.cons_append, List.append_assoc, Option.bind_eq_bind,
          Option.bind_some, if_true]
        rw [hk]
        rfl

/-- The elements of an array are read back. -/
theorem readArray_jsonArray {texts xs : List Bytes}
    (h : List.Forall₂ (Item item) texts xs) :
    ∃ out, jsonArray (texts.map some) = some out ∧
      readArray item out = some xs := by
  cases h with
  | nil =>
      exact ⟨text "[]\n", rfl, rfl⟩
  | @cons t x texts xs hx hrest =>
      obtain ⟨out, hout, hlen, hread⟩ := readItems_jsonItems hrest hx
      obtain ⟨c, t', rfl, hne⟩ := hx.head
      refine ⟨91 :: c :: (t' ++ (out ++ text "]\n")), ?_, ?_⟩
      · unfold jsonArray
        rw [List.map_cons, jsonItems, hout]
        simp [text]
      · unfold readArray
        dsimp only
        rw [if_neg (by decide), if_neg hne]
        apply hread
        rw [List.length_cons, List.length_append, List.length_append]
        omega

/-- Skip the bytes up to a closing brace. -/
def skipObject : Bytes → Option Bytes
  | [] => none
  | c :: rest => if c = 125 then some rest else skipObject rest

/-- A text without a closing brace. -/
def NoBrace (t : Bytes) : Prop :=
  ∀ c ∈ t, c ≠ 125

instance (t : Bytes) : Decidable (NoBrace t) :=
  List.decidableBAll (fun c => c ≠ 125) t

@[simp] theorem noBrace_append {a b : Bytes} :
    NoBrace (a ++ b) ↔ NoBrace a ∧ NoBrace b := by
  simp [NoBrace, or_imp, forall_and]

theorem skipObject_append {t : Bytes} (ht : NoBrace t)
    (rest : Bytes) : skipObject (t ++ 125 :: rest) = some rest := by
  induction t with
  | nil =>
      rfl
  | cons c t ih =>
      rw [List.cons_append, skipObject, if_neg (ht c (List.mem_cons_self ..))]
      exact ih fun x hx => ht x (List.mem_cons_of_mem c hx)

/-- A string that stands behind a fixed label in an object, and what follows
the object. -/
def readNamed (label bs : Bytes) : Option (Bytes × Bytes) := do
  if bs.take label.length ≠ label then none
  let (x, rest) ← readString (bs.drop label.length)
  let rest ← skipObject rest
  return (x, rest)

theorem readNamed_append (label s rest : Bytes) {t : Bytes}
    (ht : NoBrace t) :
    readNamed label (label ++ (34 :: (pieces jsonByte s ++ [34]) ++
      (t ++ 125 :: rest))) = some (s, rest) := by
  unfold readNamed
  rw [List.take_left, List.drop_left, readString_jsonStr]
  simp [skipObject_append ht]

@[simp] theorem noBrace_decimal (v : UInt64) : NoBrace (decimal v) := by
  intro c hc
  unfold decimal at hc
  split at hc
  · rw [List.mem_singleton] at hc
    subst hc
    decide
  · obtain ⟨d, hd, rfl⟩ := List.mem_map.mp hc
    have hlt : d < 10 := Nat.digits_lt_base (by decide) (List.mem_reverse.mp hd)
    interval_cases d <;> decide

end Arrays

section Output

/-- The bytes `mem` hold the C string `s`. -/
def CString (mem s : Bytes) : Prop :=
  NulFree s ∧ ∃ rest, mem = s ++ 0 :: rest

/-- The label of a queue name in the output of `cmd_stats`. -/
def queueLabel : Bytes :=
  text "\x7b\"queue\":"

/-- The label of the file name in the output of `cmd_info`. -/
def fileLabel : Bytes :=
  text "\x7b\"file\":"

theorem CString.jsonStr {mem s : Bytes} (h : CString mem s) :
    Tool.jsonStr mem = some (34 :: (pieces jsonByte s ++ [34])) := by
  obtain ⟨hs, rest, rfl⟩ := h
  exact jsonStr_eq hs rest

theorem jsonStr_item (s : Bytes) :
    Item readString (34 :: (pieces jsonByte s ++ [34])) s :=
  ⟨⟨34, _, rfl, by decide⟩, readString_jsonStr s⟩

/-- The object of one queue is read as the name of the queue. -/
theorem queueJson_item {q : QueueLine} {s : Bytes} (h : CString q.name s) :
    ∃ out, queueJson q = some out ∧ Item (readNamed queueLabel) out s := by
  unfold queueJson
  rw [h.jsonStr]
  refine ⟨_, rfl, ⟨123, _, rfl, by decide⟩, ?_⟩
  intro rest
  have hread := readNamed_append queueLabel s rest
    (t := text ",\"pending\":" ++ decimal q.pendingCount ++
      text ",\"leased\":" ++ decimal q.leasedCount ++
      text ",\"acked\":" ++ decimal q.ackedCount)
    (by
      simp only [noBrace_append, noBrace_decimal, and_true]
      decide)
  rw [← hread]
  congr 1
  simp only [queueLabel, List.append_assoc]
  rfl

/-- The object of `cmd_info` is read as the path. -/
theorem cmdInfoJson_read {l : InfoLine} {s : Bytes} (h : CString l.path s) :
    ∃ out, cmdInfoJson l = some out ∧
      readNamed fileLabel out = some (s, text "\n") := by
  unfold cmdInfoJson
  rw [h.jsonStr]
  refine ⟨_, rfl, ?_⟩
  have hadvised :
      NoBrace (text (if l.compactAdvised then "true" else "false")) := by
    cases l.compactAdvised <;> decide
  have hread := readNamed_append fileLabel s (text "\n")
    (t := text ",\"size_bytes\":" ++ decimal l.fileSizeBytes ++
      text ",\"queues\":" ++ decimal l.queueCount ++
      text ",\"pending\":" ++ decimal l.pendingCount ++
      text ",\"leased\":" ++ decimal l.leasedCount ++
      text ",\"acked\":" ++ decimal l.ackedCount ++
      text ",\"compact_advised\":" ++
      text (if l.compactAdvised then "true" else "false"))
    (by
      simp only [noBrace_append, noBrace_decimal, hadvised, and_true]
      decide)
  rw [← hread]
  congr 1

/-- The elements of a list that is written item by item. -/
theorem exists_texts {α : Type} {write : α → Option Bytes}
    {item : Bytes → Option (Bytes × Bytes)} {R : α → Bytes → Prop}
    (hitem : ∀ a x, R a x → ∃ out, write a = some out ∧ Item item out x)
    {as : List α} {xs : List Bytes} (h : List.Forall₂ R as xs) :
    ∃ texts, as.map write = texts.map some ∧
      List.Forall₂ (Item item) texts xs := by
  induction h with
  | nil =>
      exact ⟨[], rfl, List.Forall₂.nil⟩
  | cons hx _ ih =>
      obtain ⟨out, hout, hi⟩ := hitem _ _ hx
      obtain ⟨texts, ht, hall⟩ := ih
      exact ⟨out :: texts, by simp [hout, ht], List.Forall₂.cons hi hall⟩

/-- `json_str` writes a string literal that is read back as the string,
whatever follows it, so that different strings are written differently; the
names in the outputs of `cmd_info`, `cmd_list` and `cmd_stats` are read back. -/
theorem json_output_faithful :
    (∀ mem s, CString mem s → ∃ out, jsonStr mem = some out ∧ Literal out ∧
      ∀ rest, readString (out ++ rest) = some (s, rest)) ∧
    (∀ mem mem' s s', CString mem s → CString mem' s' →
      jsonStr mem = jsonStr mem' → s = s') ∧
    (∀ mems names, List.Forall₂ CString mems names →
      ∃ out, cmdListJson mems = some out ∧
        readArray readString out = some names) ∧
    (∀ qs names, List.Forall₂ (fun q s => CString q.name s) qs names →
      ∃ out, cmdStatsJson qs = some out ∧
        readArray (readNamed queueLabel) out = some names) ∧
    (∀ q s, CString q.name s → ∃ out, cmdStatsQueueJson q = some out ∧
      readNamed queueLabel out = some (s, text "\n")) ∧
    (∀ l s, CString l.path s → ∃ out, cmdInfoJson l = some out ∧
      readNamed fileLabel out = some (s, text "\n")) := by
  refine ⟨?_, ?_, ?_, ?_, ?_, fun l s h => cmdInfoJson_read h⟩
  · intro mem s h
    exact ⟨_, h.jsonStr, Pieces.literal (fun c _ => piece_jsonByte c),
      readString_jsonStr s⟩
  · intro mem mem' s s' h h' heq
    rw [h.jsonStr, h'.jsonStr] at heq
    have hs := readString_jsonStr s []
    rw [Option.some_inj.mp heq, readString_jsonStr s' []] at hs
    cases hs
    rfl
  · intro mems names h
    obtain ⟨texts, ht, hall⟩ := exists_texts
      (fun a x (hx : CString a x) => ⟨_, hx.jsonStr, jsonStr_item x⟩) h
    unfold cmdListJson
    rw [ht]
    exact readArray_jsonArray hall
  · intro qs names h
    obtain ⟨texts, ht, hall⟩ := exists_texts
      (fun (q : QueueLine) s (hq : CString q.name s) => queueJson_item hq) h
    unfold cmdStatsJson
    rw [ht]
    exact readArray_jsonArray hall
  · intro q s h
    obtain ⟨out, hout, hitem⟩ := queueJson_item h
    refine ⟨out ++ text "\n", ?_, hitem.read _⟩
    rw [cmdStatsQueueJson, hout]
    rfl

/-- A quote, a backslash in front of a `u`, a control byte and a high byte. -/
theorem json_output_faithful_escapes :
    ∃ out, jsonStr [34, 92, 117, 48, 1, 10, 200, 0] = some out ∧
      Literal out ∧ ∀ rest, readString (out ++ rest) =
        some ([34, 92, 117, 48, 1, 10, 200], rest) :=
  json_output_faithful.1 _ [34, 92, 117, 48, 1, 10, 200]
    ⟨by simp [NulFree], [], rfl⟩

end Output

end Tool
end Qdb
