import LedgerCache.Error
import Mathlib.Data.List.Basic
import Std.Data.String.ToInt

namespace LedgerCache

namespace Text

/-- The characters of written numbers. -/
def inNumber (c : Char) : Bool := c.isDigit || c == '-'

theorem inNumber_of_mem {n : Int} {c : Char} (hc : c ∈ (toString n).toList) :
    inNumber c = true := by
  have hdigit (m : Nat) (h : c ∈ m.repr.toList) : c.isDigit = true := by
    rw [Nat.toList_repr] at h
    exact Nat.isDigit_of_mem_toDigits (by decide) (by decide) h
  rw [Int.toString_eq_repr, Int.repr_eq_if] at hc
  rw [inNumber, Bool.or_eq_true, beq_iff_eq]
  split at hc
  · exact .inl (hdigit _ hc)
  · rw [String.toList_append, List.mem_append] at hc
    rcases hc with hsign | hc
    · exact .inr (List.mem_singleton.1 hsign)
    · exact .inl (hdigit _ hc)

/-- The longest run of such characters is the number. -/
theorem takeWhile_number (n : Int) {c : Char} (hc : inNumber c = false) (rest : List Char) :
    ((toString n).toList ++ c :: rest).takeWhile inNumber = (toString n).toList := by
  rw [List.takeWhile_append_of_pos fun _ => inNumber_of_mem]
  simp [hc]

theorem number_inj {m n : Int} : toString m = toString n ↔ m = n := by
  rw [Int.toString_eq_repr, Int.toString_eq_repr, Int.repr_inj]

theorem number_natCast (n : Nat) : toString (n : Int) = toString n := rfl

/-- Two numbers with fixed words between and behind them. -/
def pair (between behind : String) (m n : Int) : String :=
  toString m ++ between ++ toString n ++ behind

theorem pair_inj {between behind : String} {c : Char} {rest : List Char}
    (hbetween : between.toList = c :: rest) (hc : inNumber c = false) {m n m' n' : Int} :
    pair between behind m n = pair between behind m' n' ↔ m = m' ∧ n = n' := by
  constructor
  · intro h
    rw [pair, pair, String.append_left_inj, ← String.toList_inj] at h
    simp only [String.append_assoc, String.toList_append, hbetween, List.cons_append] at h
    -- What is before `between` is the longest run on either side, so `between` stands at one place.
    have hfirst := congrArg (List.takeWhile inNumber) h
    rw [takeWhile_number m hc, takeWhile_number m' hc] at hfirst
    rw [hfirst, List.append_cancel_left_eq, List.cons.injEq, List.append_cancel_left_eq] at h
    exact ⟨number_inj.1 (String.toList_inj.1 hfirst), number_inj.1 (String.toList_inj.1 h.2)⟩
  · rintro ⟨rfl, rfl⟩
    rfl

end Text

namespace Key

theorem toInt_inj {k k' : Key} :
    k.owner.toInt = k'.owner.toInt ∧ k.sequence.toInt = k'.sequence.toInt ↔ k = k' := by
  cases k
  cases k'
  simp [Int64.toInt_inj]

theorem text_eq (k : Key) :
    k.text = "(" ++ Text.pair ", " ")" k.owner.toInt k.sequence.toInt := by
  simp only [Text.pair, ← String.append_assoc]
  rfl

theorem text_inj {k k' : Key} : k.text = k'.text ↔ k = k' := by
  rw [text_eq, text_eq, String.append_right_inj, ← toInt_inj]
  exact Text.pair_inj (c := ',') rfl rfl

end Key

namespace Error

/-- The words that a message opens with. -/
def opening : Error → String
  | .negativeOwner _ => "Invalid key: "
  | .emptyPayload => "Invalid payload: "
  | .oversizedPayload .. => "Oversized payload: "
  | .noRoom .. => "Cache full: "
  | .closed => "Cache is closed"
  | .invalidCapacity _ => "Invalid capacity: "
  | .invalidSetting _ => "Invalid configuration: "

/-- What a message says behind its opening. -/
def details : Error → String
  | .negativeOwner k =>
      "owner id " ++
        Text.pair " (sequence id " ") must not be negative" k.owner.toInt k.sequence.toInt
  | .emptyPayload => "entry payload must not be empty"
  | .oversizedPayload size capacity =>
      Text.pair " bytes exceeds cache capacity of " " bytes" size capacity
  | .noRoom size available => Text.pair " bytes requested, " " bytes available" size available
  | .closed => ""
  | .invalidCapacity bytes => toString bytes ++ " bytes"
  | .invalidSetting text => text

theorem message_eq (e : Error) : e.message = e.opening ++ e.details := by
  unfold message opening details
  cases e with
  | negativeOwner k =>
    simp only [Text.pair, ← String.append_assoc]
    rfl
  | emptyPayload => rfl
  | oversizedPayload size capacity =>
    simp only [Text.pair, ← String.append_assoc, Text.number_natCast]
    rfl
  | noRoom size available =>
    simp only [Text.pair, ← String.append_assoc, Text.number_natCast]
    rfl
  | closed => exact String.append_empty.symm
  | invalidCapacity bytes => exact String.append_assoc ..
  | invalidSetting text => rfl

/-- Each opening has ten characters at least. -/
theorem take_opening (e : Error) (text : String) :
    (e.opening ++ text).toList.take 10 = e.opening.toList.take 10 := by
  cases e <;> simp [opening]

/-- No opening is the beginning of another: the first ten characters tell them apart. -/
theorem opening_eq_of_append {e e' : Error} {text text' : String}
    (h : e.opening ++ text = e'.opening ++ text') : e.opening = e'.opening := by
  have htake := congrArg (·.toList.take 10) h
  simp only [take_opening] at htake
  cases e <;> cases e' <;> simp [opening] at htake ⊢

theorem message_inj {e e' : Error} : e.message = e'.message ↔ e = e' := by
  refine ⟨fun h => ?_, congrArg message⟩
  rw [message_eq, message_eq] at h
  have hopening := opening_eq_of_append h
  rw [hopening, String.append_right_inj] at h
  cases e with
  | negativeOwner k =>
    cases e' with
    | negativeOwner k' =>
      have hpair := (String.append_right_inj "owner id ").1 h
      exact congrArg negativeOwner (Key.toInt_inj.1 ((Text.pair_inj (c := ' ') rfl rfl).1 hpair))
    | _ => simp [opening] at hopening
  | emptyPayload =>
    cases e' with
    | emptyPayload => rfl
    | _ => simp [opening] at hopening
  | oversizedPayload size capacity =>
    cases e' with
    | oversizedPayload size' capacity' =>
      obtain ⟨hsize, hcapacity⟩ := (Text.pair_inj (c := ' ') rfl rfl).1 h
      rw [Int.ofNat_inj.1 hsize, Int.ofNat_inj.1 hcapacity]
    | _ => simp [opening] at hopening
  | noRoom size available =>
    cases e' with
    | noRoom size' available' =>
      obtain ⟨hsize, havailable⟩ := (Text.pair_inj (c := ' ') rfl rfl).1 h
      rw [Int.ofNat_inj.1 hsize, Int.ofNat_inj.1 havailable]
    | _ => simp [opening] at hopening
  | closed =>
    cases e' with
    | closed => rfl
    | _ => simp [opening] at hopening
  | invalidCapacity bytes =>
    cases e' with
    | invalidCapacity bytes' =>
      exact congrArg invalidCapacity (Nat.repr_inj.1 ((String.append_left_inj " bytes").1 h))
    | _ => simp [opening] at hopening
  | invalidSetting text =>
    cases e' with
    | invalidSetting text' => exact congrArg invalidSetting h
    | _ => simp [opening] at hopening

end Error

/-- A text stands for one key or for one refusal, whatever its cause and the figures in it are. -/
theorem texts_identify (k k' : Key) (e e' : Error) :
    (k.text = k'.text ↔ k = k') ∧ (e.message = e'.message ↔ e = e') :=
  ⟨Key.text_inj, Error.message_inj⟩

end LedgerCache
