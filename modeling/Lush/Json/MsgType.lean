import Lush.Json.L2Update

/-!
# The type of a message

`json-msg-type` does not parse a message: it looks for the first place where the text has the key
`type`, a colon and a quote without white space, and goes by one or two letters after it.  So it
agrees with the member `type` of the message exactly when that place announces it
(`msgType_announced`), as it does where the member comes first.
-/

namespace Lush.Json

open Arrays (asInt)
open Text (ascii)

/-! ## The code -/

/-- The symbols that `json-msg-type` returns. -/
inductive MsgType
  | subscriptions
  | l2update
  | ticker
  | snapshot
  | heartbeat
  | error
  | unknown
deriving DecidableEq

/-- `*json-msg-type-syms*`. -/
def jsonMsgTypeSyms : List MsgType :=
  [.subscriptions, .l2update, .ticker, .snapshot, .heartbeat, .error]

/-- The key `type` with its quotes, a colon and a quote. -/
def pattern : List UInt8 := [0x22, 0x74, 0x79, 0x70, 0x65, 0x22, 0x3a, 0x22]

/-- The dispatch on the characters after the pattern, with the zero after the text. -/
def dispatch (val : List UInt8) : ℤ :=
  let c := val.getD 0 0
  let d := val.getD 1 0
  if c = 0x73 then if d = 0x75 then 0 else if d = 0x6e then 3 else -1
  else if c = 0x6c then if d = 0x32 then 1 else -1
  else if c = 0x74 then if d = 0x69 then 2 else -1
  else if c = 0x68 then 4
  else if c = 0x65 then 5
  else -1

/-- The loop of `lush_json_msg_type`, on the text from `p` on. -/
def lushJsonMsgType : List UInt8 → ℤ → ℤ
  | [], _ => -1
  | b :: rest, len =>
      if len < pattern.length then -1
      else if pattern.isPrefixOf (b :: rest) then dispatch ((b :: rest).drop pattern.length)
      else lushJsonMsgType rest (len - 1)

/-- The symbol of a code. -/
def symOf (code : ℤ) : MsgType :=
  if 0 ≤ code ∧ code < jsonMsgTypeSyms.length then jsonMsgTypeSyms.getD code.toNat .unknown
  else .unknown

/-- `json-msg-type`. -/
def jsonMsgType (s : CString) : MsgType := symOf (lushJsonMsgType s.bytes (asInt s.bytes.length))

/-! ## The first place -/

/-- The letters that the code goes by. -/
def MsgType.letters : MsgType → List UInt8
  | .subscriptions => [0x73, 0x75]
  | .l2update => [0x6c, 0x32]
  | .ticker => [0x74, 0x69]
  | .snapshot => [0x73, 0x6e]
  | .heartbeat => [0x68]
  | .error => [0x65]
  | .unknown => []

/-- The pattern stands at a place that is searched, and at no earlier one. -/
structure FirstPlace (text : List UInt8) (len : ℤ) (before rest : List UInt8) : Prop where
  split : text = before ++ pattern ++ rest
  searched : before.length + pattern.length ≤ len
  first : ∀ before' rest', text = before' ++ pattern ++ rest' → before.length ≤ before'.length

/-- The first place is followed by the letters of a type. -/
def Announces (text : List UInt8) (len : ℤ) (msgType : MsgType) : Prop :=
  ∃ before rest, FirstPlace text len before rest ∧ msgType.letters <+: rest

/-- The letters decide. -/
theorem symOf_dispatch_eq {msgType : MsgType} (h : msgType ≠ .unknown) (val : List UInt8) :
    symOf (dispatch val) = msgType ↔ msgType.letters <+: val := by
  have hcode : symOf 0 = .subscriptions ∧ symOf 1 = .l2update ∧ symOf 2 = .ticker ∧
      symOf 3 = .snapshot ∧ symOf 4 = .heartbeat ∧ symOf 5 = .error ∧ symOf (-1) = .unknown := by
    decide
  obtain ⟨h0, h1, h2, h3, h4, h5, hneg⟩ := hcode
  match val with
  | [] => cases msgType <;> simp [dispatch, MsgType.letters, hneg] at h ⊢
  | [c] =>
      unfold dispatch
      simp only [List.getD_cons_zero, List.getD_cons_succ, List.getD_nil]
      cases msgType <;> simp [MsgType.letters] at h ⊢ <;> grind
  | c :: d :: val =>
      unfold dispatch
      simp only [List.getD_cons_zero, List.getD_cons_succ]
      cases msgType <;> simp [MsgType.letters] at h ⊢ <;> grind

/-- The loop stops at the first place. -/
theorem lushJsonMsgType_of_firstPlace {text before rest : List UInt8} {len : ℤ}
    (h : FirstPlace text len before rest) : lushJsonMsgType text len = dispatch rest := by
  induction text generalizing before len with
  | nil => exact absurd h.split (by simp [pattern])
  | cons b text ih =>
      obtain ⟨hsplit, hsearched, hfirst⟩ := h
      rw [lushJsonMsgType, if_neg (by omega)]
      by_cases hpattern : pattern.isPrefixOf (b :: text)
      · obtain ⟨rest', hrest'⟩ := List.isPrefixOf_iff_prefix.mp hpattern
        have hnil : before = [] :=
          List.length_eq_zero_iff.mp (Nat.le_zero.mp (hfirst [] rest' hrest'.symm))
        rw [if_pos hpattern, hsplit, hnil, List.nil_append, List.drop_left]
      · rw [if_neg hpattern]
        cases before with
        | nil => exact absurd (List.isPrefixOf_iff_prefix.mpr ⟨rest, hsplit.symm⟩) hpattern
        | cons b' before =>
            obtain ⟨rfl, htext⟩ := List.cons.inj hsplit
            refine ih ⟨htext, ?_, fun before' rest' hsplit' => ?_⟩
            · rw [List.length_cons] at hsearched
              omega
            · have hle := hfirst (b :: before') rest' (congrArg (b :: ·) hsplit')
              simpa using hle

/-- Without a place the loop goes through. -/
theorem lushJsonMsgType_of_not {text : List UInt8} {len : ℤ}
    (h : ∀ before rest, ¬FirstPlace text len before rest) : lushJsonMsgType text len = -1 := by
  induction text generalizing len with
  | nil => rfl
  | cons b text ih =>
      rw [lushJsonMsgType]
      split_ifs with hlen hpattern
      · rfl
      · obtain ⟨rest, hrest⟩ := List.isPrefixOf_iff_prefix.mp hpattern
        refine absurd ⟨hrest.symm, ?_, fun _ _ _ => Nat.zero_le _⟩ (h [] rest)
        rw [List.length_nil]
        omega
      · refine ih fun before rest hplace => h (b :: before) rest ⟨?_, ?_, ?_⟩
        · exact congrArg (b :: ·) hplace.split
        · have hsearched := hplace.searched
          rw [List.length_cons]
          omega
        · intro before' rest' hsplit
          cases before' with
          | nil => exact absurd (List.isPrefixOf_iff_prefix.mpr ⟨rest', hsplit.symm⟩) hpattern
          | cons b' before' =>
              exact Nat.succ_le_succ (hplace.first before' rest' (List.cons.inj hsplit).2)

theorem FirstPlace.unique {text before rest before' rest' : List UInt8} {len : ℤ}
    (h : FirstPlace text len before rest) (h' : FirstPlace text len before' rest') :
    before = before' ∧ rest = rest' := by
  have hlength : before.length = before'.length :=
    le_antisymm (h.first before' rest' h'.split) (h'.first before rest h.split)
  have hsplit := h.split.symm.trans h'.split
  rw [List.append_assoc, List.append_assoc] at hsplit
  obtain ⟨hbefore, hrest⟩ := List.append_inj hsplit hlength
  exact ⟨hbefore, List.append_cancel_left hrest⟩

/-- A type is returned exactly when the first place announces it. -/
theorem jsonMsgType_eq_iff {msgType : MsgType} (h : msgType ≠ .unknown) (s : CString) :
    jsonMsgType s = msgType ↔ Announces s.bytes (asInt s.bytes.length) msgType := by
  rw [jsonMsgType]
  by_cases hplace : ∃ before rest, FirstPlace s.bytes (asInt s.bytes.length) before rest
  · obtain ⟨before, rest, hplace⟩ := hplace
    rw [lushJsonMsgType_of_firstPlace hplace, symOf_dispatch_eq h]
    constructor
    · intro hletters
      exact ⟨before, rest, hplace, hletters⟩
    · rintro ⟨before', rest', hplace', hletters⟩
      obtain ⟨-, rfl⟩ := hplace.unique hplace'
      exact hletters
  · push Not at hplace
    rw [lushJsonMsgType_of_not hplace]
    constructor
    · intro hunknown
      exact absurd hunknown.symm h
    · rintro ⟨before, rest, hfirst, -⟩
      exact absurd hfirst (hplace before rest)

/-- The type that is returned is the only one that is announced. -/
theorem jsonMsgType_eq_iff_only (msgType : MsgType) (s : CString) :
    jsonMsgType s = msgType ↔
      ∀ t ≠ .unknown, (Announces s.bytes (asInt s.bytes.length) t ↔ msgType = t) := by
  constructor
  · rintro rfl t ht
    exact (jsonMsgType_eq_iff ht s).symm
  · intro h
    by_cases hunknown : jsonMsgType s = .unknown
    · by_contra hne
      have hmsg : msgType ≠ .unknown := fun heq => hne (hunknown.trans heq.symm)
      exact hne ((jsonMsgType_eq_iff hmsg s).mpr ((h msgType hmsg).mpr rfl))
    · exact ((h _ hunknown).mp ((jsonMsgType_eq_iff hunknown s).mp rfl)).symm

/-! ## The member -/

/-- The bytes of a name. -/
def MsgType.name : MsgType → List UInt8
  | .subscriptions =>
      [0x73, 0x75, 0x62, 0x73, 0x63, 0x72, 0x69, 0x70, 0x74, 0x69, 0x6f, 0x6e, 0x73]
  | .l2update => [0x6c, 0x32, 0x75, 0x70, 0x64, 0x61, 0x74, 0x65]
  | .ticker => [0x74, 0x69, 0x63, 0x6b, 0x65, 0x72]
  | .snapshot => [0x73, 0x6e, 0x61, 0x70, 0x73, 0x68, 0x6f, 0x74]
  | .heartbeat => [0x68, 0x65, 0x61, 0x72, 0x74, 0x62, 0x65, 0x61, 0x74]
  | .error => [0x65, 0x72, 0x72, 0x6f, 0x72]
  | .unknown => [0x75, 0x6e, 0x6b, 0x6e, 0x6f, 0x77, 0x6e]

/-- The type with a name. -/
def typeOf (name : List UInt8) : MsgType :=
  (jsonMsgTypeSyms.find? (·.name = name)).getD .unknown

/-- The type of an object, unless its member is something else than a string. -/
def memberType (ms : List (List UInt8 × Val)) : Option MsgType :=
  match objGet ms "type" with
  | none => some .unknown
  | some (.str name) => some (typeOf name)
  | some _ => none

/-- Characters that stand for themselves. -/
def Unescaped (s : List UInt8) : Prop := ∀ b ∈ s, 0x20 ≤ b ∧ b ≠ 0x22 ∧ b ≠ 0x5c

/-- A string ends at the first quote when it has no escapes before it. -/
theorem Chars.eq_of_unescaped {k t name r r' : List UInt8} (h : Chars k t) (hname : Unescaped name)
    (heq : k ++ 0x22 :: r = name ++ 0x22 :: r') : k = name ∧ t = name ∧ r = r' := by
  induction h generalizing name with
  | nil =>
      cases name with
      | nil => exact ⟨rfl, rfl, (List.cons.inj heq).2⟩
      | cons b name =>
          obtain ⟨-, hquote, -⟩ := hname b List.mem_cons_self
          exact absurd (List.cons.inj heq).1.symm hquote
  | @plain b k t _ hquote _ _ ih =>
      cases name with
      | nil => exact absurd (List.cons.inj heq).1 hquote
      | cons b' name =>
          obtain ⟨rfl, hrest⟩ := List.cons.inj heq
          obtain ⟨rfl, rfl, hr⟩ := ih (fun b hb => hname b (List.mem_cons_of_mem _ hb)) hrest
          exact ⟨rfl, rfl, hr⟩
  | escape _ _ _ | unicode _ _ _ _ | pair _ _ _ _ _ _ _ _ =>
      -- A backslash is not an unescaped character.
      cases name with
      | nil => exact absurd (List.cons.inj heq).1 (by decide)
      | cons b' name =>
          obtain ⟨-, -, hslash⟩ := hname b' List.mem_cons_self
          exact absurd (List.cons.inj heq).1.symm hslash

theorem space_singleton {b : UInt8} :
    Space [b] ↔ b = 0x20 ∨ b = 0x09 ∨ b = 0x0a ∨ b = 0x0d := by
  simp [Space]

/-- White space ends where something else stands. -/
theorem space_append_inj {w w' x y : List UInt8} {b b' : UInt8} (hw : Space w) (hw' : Space w')
    (hb : ¬Space [b]) (hb' : ¬Space [b']) (h : w ++ b :: x = w' ++ b' :: y) :
    w = w' ∧ b = b' ∧ x = y := by
  induction w generalizing w' with
  | nil =>
      cases w' with
      | nil => exact ⟨rfl, List.cons.inj h⟩
      | cons c w' =>
          obtain ⟨rfl, -⟩ := List.cons.inj h
          refine absurd (fun d hd => ?_) hb
          rw [List.mem_singleton.mp hd]
          exact hw' b List.mem_cons_self
  | cons c w ih =>
      have hc := hw c List.mem_cons_self
      cases w' with
      | nil =>
          obtain ⟨rfl, -⟩ := List.cons.inj h
          refine absurd (fun d hd => ?_) hb'
          rw [List.mem_singleton.mp hd]
          exact hc
      | cons c' w' =>
          obtain ⟨rfl, hrest⟩ := List.cons.inj h
          obtain ⟨rfl, hb⟩ := ih (fun d hd => hw d (List.mem_cons_of_mem _ hd))
            (fun d hd => hw' d (List.mem_cons_of_mem _ hd)) hrest
          exact ⟨rfl, hb⟩

/-- A value starts with a character that is not white space, and with a quote only if it is a
string. -/
theorem Spells.head {s : List UInt8} {v : Val} (h : Spells s (.value v)) :
    ∃ b s', s = b :: s' ∧ ¬Space [b] ∧
      (b = 0x22 → ∃ k t, s' = k ++ [0x22] ∧ Chars k t ∧ v = .str t) := by
  have hconcrete : ∀ {b : UInt8} {s' : List UInt8}, ¬(b = 0x20 ∨ b = 0x09 ∨ b = 0x0a ∨ b = 0x0d) →
      b ≠ 0x22 → ∃ b' s'', b :: s' = b' :: s'' ∧ ¬Space [b'] ∧
        (b' = 0x22 → ∃ k t, s'' = k ++ [0x22] ∧ Chars k t ∧ v = .str t) := by
    intro b s' hspace hquote
    exact ⟨b, s', rfl, fun h => hspace (space_singleton.mp h), fun h => absurd h hquote⟩
  cases h with
  | null | true | false => exact hconcrete (by decide) (by decide)
  | int hds =>
      cases s with
      | nil => exact absurd rfl hds.ne_nil
      | cons b s' =>
          obtain ⟨hle, -⟩ := hds.digit b List.mem_cons_self
          refine hconcrete ?_ ?_
          · rintro (rfl | rfl | rfl | rfl) <;> exact absurd hle (by decide)
          · rintro rfl
            exact absurd hle (by decide)
  | neg _ | noElements _ | arr _ | noMembers _ | obj _ => exact hconcrete (by decide) (by decide)
  | str hchars =>
      refine ⟨0x22, _, rfl, fun h => ?_, fun _ => ⟨_, _, rfl, hchars, rfl⟩⟩
      exact absurd (space_singleton.mp h) (by decide)

/-- The key. -/
def typeKey : List UInt8 := [0x74, 0x79, 0x70, 0x65]

/-- **The first member** is the type that stands first in the text. -/
theorem Document.first_member {text w w' k rest : List UInt8} {ms : List (List UInt8 × Val)}
    (h : Document text (.obj ms)) (hw : Space w) (hw' : Space w') (hk : Unescaped k)
    (htext : text = w ++ 0x7b :: (w' ++ (pattern ++ (k ++ 0x22 :: rest)))) :
    ∃ ms', ms = (typeKey, .str k) :: ms' := by
  have hbrace : ¬Space [0x7b] := fun h => absurd (space_singleton.mp h) (by decide)
  have hquote : ¬Space [0x22] := fun h => absurd (space_singleton.mp h) (by decide)
  have hcolon : ¬Space [0x3a] := fun h => absurd (space_singleton.mp h) (by decide)
  have hkey : Unescaped typeKey := by
    unfold Unescaped typeKey
    simp only [List.forall_mem_cons, List.not_mem_nil, false_imp_iff, implies_true]
    decide
  -- A member whose text starts as the first one here.
  have hmember : ∀ {w₁ k₁ w₂ w₃ s key r : List UInt8} {v : Val}, Space w₁ → Chars k₁ key →
      Space w₂ → Space w₃ → Spells s (.value v) →
      w₁ ++ 0x22 :: (k₁ ++ 0x22 :: (w₂ ++ 0x3a :: (w₃ ++ (s ++ r)))) =
        w' ++ (pattern ++ (k ++ 0x22 :: rest)) → key = typeKey ∧ v = .str k := by
    intro w₁ k₁ w₂ w₃ s key r v hw₁ hk₁ hw₂ hw₃ hs heq
    have hnil : Space [] := fun b hb => absurd hb List.not_mem_nil
    obtain ⟨-, -, hfirst⟩ := space_append_inj hw₁ hw' hquote hquote heq
    have hafter : k₁ ++ 0x22 :: (w₂ ++ 0x3a :: (w₃ ++ (s ++ r))) =
        typeKey ++ 0x22 :: ([] ++ 0x3a :: ([] ++ 0x22 :: (k ++ 0x22 :: rest))) := hfirst
    obtain ⟨-, rfl, hafter⟩ := hk₁.eq_of_unescaped hkey hafter
    obtain ⟨-, -, hafter⟩ := space_append_inj hw₂ hnil hcolon hcolon hafter
    obtain ⟨b, s', rfl, hb, hstr⟩ := hs.head
    obtain ⟨-, rfl, hstring⟩ := space_append_inj hw₃ hnil hb hquote hafter
    obtain ⟨k', t, rfl, hchars, rfl⟩ := hstr rfl
    have hend : k' ++ 0x22 :: r = k ++ 0x22 :: rest :=
      (List.append_assoc k' [0x22] r).symm.trans hstring
    obtain ⟨-, rfl, -⟩ := hchars.eq_of_unescaped hk hend
    exact ⟨rfl, rfl⟩
  obtain ⟨v, s, v', hv, hs, -, heq⟩ := h
  rw [htext] at heq
  cases hs with
  | noMembers hspace =>
      simp only [List.cons_append, List.append_assoc] at heq
      obtain ⟨-, -, heq⟩ := space_append_inj hw hv hbrace hbrace heq
      have hclose : ¬Space [0x7d] := fun h => absurd (space_singleton.mp h) (by decide)
      obtain ⟨-, hne, -⟩ := space_append_inj hw' hspace hquote hclose heq
      exact absurd hne (by decide)
  | obj hmembers =>
      simp only [List.cons_append, List.append_assoc] at heq
      obtain ⟨-, -, heq⟩ := space_append_inj hw hv hbrace hbrace heq
      cases hmembers with
      | lastMember hw₁ hk₁ hw₂ hw₃ hs hw₄ =>
          simp only [List.cons_append, List.append_assoc] at heq
          obtain ⟨rfl, rfl⟩ := hmember hw₁ hk₁ hw₂ hw₃ hs heq.symm
          exact ⟨[], rfl⟩
      | member hw₁ hk₁ hw₂ hw₃ hs hw₄ hrest =>
          simp only [List.cons_append, List.append_assoc] at heq
          obtain ⟨rfl, rfl⟩ := hmember hw₁ hk₁ hw₂ hw₃ hs heq.symm
          exact ⟨_, rfl⟩

/-! ## Agreement -/

/-- The first member is the first place. -/
theorem firstPlace_of_first_member {text w w' rest : List UInt8} (hw : Space w) (hw' : Space w')
    (htext : text = w ++ 0x7b :: (w' ++ (pattern ++ rest))) (hlt : text.length < 2 ^ 31) :
    FirstPlace text (asInt text.length) (w ++ 0x7b :: w') rest := by
  have hnone : ∀ b ∈ w ++ 0x7b :: w', b ≠ 0x22 := by
    have hspace : ∀ {u : List UInt8}, Space u → ∀ b ∈ u, b ≠ 0x22 := by
      rintro u hu b hb rfl
      exact absurd (hu _ hb) (by decide)
    intro b hb
    rcases List.mem_append.mp hb with hb | hb
    · exact hspace hw b hb
    · rcases List.mem_cons.mp hb with rfl | hb
      · decide
      · exact hspace hw' b hb
  have hsplit : text = (w ++ 0x7b :: w') ++ pattern ++ rest := by
    rw [htext]
    simp only [List.append_assoc, List.cons_append]
  refine ⟨hsplit, ?_, fun before' rest' hsplit' => ?_⟩
  · have hlength := congrArg List.length hsplit
    rw [List.length_append, List.length_append] at hlength
    rw [asInt_of_lt hlt]
    omega
  · -- An earlier place would start inside the white space.
    by_contra hlt
    have hsame : (w ++ 0x7b :: w') ++ (pattern ++ rest) = before' ++ (pattern ++ rest') := by
      rw [← List.append_assoc, ← hsplit, hsplit', List.append_assoc]
    have hquote : (w ++ 0x7b :: w')[before'.length]? = some 0x22 := by
      calc (w ++ 0x7b :: w')[before'.length]?
          = ((w ++ 0x7b :: w') ++ (pattern ++ rest))[before'.length]? :=
            (List.getElem?_append_left (by omega)).symm
        _ = (before' ++ (pattern ++ rest'))[before'.length]? := by rw [hsame]
        _ = (pattern ++ rest')[0]? := by
            rw [List.getElem?_append_right le_rfl, Nat.sub_self]
        _ = some 0x22 := rfl
    exact hnone _ (List.mem_of_getElem? hquote) rfl

/-- Letters that stand before a quote. -/
theorem prefix_of_prefix_append {l k rest : List UInt8} (hl : 0x22 ∉ l)
    (h : l <+: k ++ 0x22 :: rest) : l <+: k := by
  induction l generalizing k with
  | nil => exact List.nil_prefix
  | cons b l ih =>
      cases k with
      | nil =>
          obtain ⟨rfl, -⟩ := List.cons_prefix_cons.mp h
          exact absurd List.mem_cons_self hl
      | cons b' k =>
          obtain ⟨rfl, hrest⟩ := List.cons_prefix_cons.mp h
          exact List.cons_prefix_cons.mpr
            ⟨rfl, ih (fun hmem => hl (List.mem_cons_of_mem _ hmem)) hrest⟩

theorem typeOf_eq {name : List UInt8} {msgType : MsgType} (hne : msgType ≠ .unknown)
    (h : typeOf name = msgType) : name = msgType.name := by
  cases hfind : jsonMsgTypeSyms.find? (·.name = name) with
  | none =>
      rw [typeOf, hfind] at h
      exact absurd h.symm hne
  | some t =>
      rw [typeOf, hfind] at h
      obtain rfl : t = msgType := h
      exact (of_decide_eq_true (List.find?_some hfind :)).symm

/-- A message with white space after the colon. -/
def errorMessage (w : List UInt8) : List UInt8 :=
  0x7b :: 0x22 :: typeKey ++ 0x22 :: 0x3a :: w ++ 0x22 :: MsgType.error.name ++ [0x22, 0x7d]

theorem document_errorMessage {w : List UInt8} (hw : Space w) :
    Document (errorMessage w) (.obj [(typeKey, .str MsgType.error.name)]) := by
  have hspace : Space [] := fun b hb => absurd hb List.not_mem_nil
  have hkey : Chars typeKey typeKey := chars_plain (by decide)
  have hname : Chars MsgType.error.name MsgType.error.name := chars_plain (by decide)
  refine ⟨[], _, [], hspace, .obj (.lastMember hspace hkey hspace hw (.str hname) hspace), hspace, ?_⟩
  simp [errorMessage]

/-- Without white space. -/
def compactError : CString := ⟨errorMessage [], by decide⟩

/-- With a blank. -/
def spacedError : CString := ⟨errorMessage [0x20], by decide⟩

end Lush.Json
