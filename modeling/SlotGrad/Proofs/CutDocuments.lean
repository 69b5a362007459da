import SlotGrad.Proofs.JsonTrees

/-!
# Documents cut off

Writing stops at the first member without a written form, and leaves the text before it.  The
text of an object is then without its last bracket: there is always a bracket that is opened and
not closed, while a tree that is read closes whatever it opens.  So the text that is left is not
a tree's.

This is not so of arrays.  The bracket of an array is written together with its first member if
that is an integer, so that nothing at all is left of an array that begins with an integer of
too many digits.

## Main definitions

* `Json.Whole` — trees all of whose members have a written form.
* `Token.opened`, `Parser.depth` — how many brackets are open after some tokens.

## Main results

* `Json.writeAt_error_iff` — exactly the whole trees are written to their end.
* `Parser.depth_value?` — a tree that is read closes the brackets it opens.
* `Json.read?_cut` — the text that is left where writing stopped is not read.
-/

namespace SlotGrad
namespace Saved

variable {F : Type}

namespace Json

/-! ### Trees with a written form -/

/-- Every member of the tree has a written form. -/
inductive Whole : Json F → Prop where
  | null : Whole .null
  | bool (b : Bool) : Whole (.bool b)
  | integer {n : Int} (hn : Short n) : Whole (.integer n)
  | real (x : F) : Whole (.real x)
  | text (s : String) : Whole (.text s)
  | array {xs : List (Json F)} (hxs : ∀ x ∈ xs, Whole x) : Whole (.array xs)
  | object {es : List (String × Json F)} (hes : ∀ e ∈ es, Whole e.2) : Whole (.object es)

theorem whole_integer_iff {n : Int} : Whole (.integer n : Json F) ↔ Short n :=
  ⟨fun h => by cases h; assumption, .integer⟩

theorem whole_array_iff {xs : List (Json F)} : Whole (.array xs) ↔ ∀ x ∈ xs, Whole x :=
  ⟨fun h => by cases h; assumption, .array⟩

theorem whole_object_iff {es : List (String × Json F)} :
    Whole (.object es) ↔ ∀ e ∈ es, Whole e.2 :=
  ⟨fun h => by cases h; assumption, .object⟩

theorem not_whole_refused (e : Error) : ¬Whole (.refused e : Json F) := by
  intro h
  cases h

theorem not_whole_cut (es : List (String × Json F)) (e : Error) : ¬Whole (.cut es e) := by
  intro h
  cases h

section

variable [Interchange F]

omit [Interchange F] in
theorem Written.append_error_iff {a b : Written} :
    (Written.append a b).error = none ↔ a.error = none ∧ b.error = none := by
  refine ⟨Written.append_error, fun ⟨ha, hb⟩ => ?_⟩
  obtain ⟨s, e⟩ := a
  cases ha
  exact hb

mutual

/-- **A tree is written to its end exactly if all its members have a written form.** -/
theorem writeAt_error_iff (level : Nat) : ∀ j : Json F, (writeAt level j).error = none ↔ j.Whole
  | .null => by simp [writeAt, Whole.null]
  | .bool b => by simp [writeAt, Whole.bool]
  | .integer n => by rw [writeAt, writeInteger_error_iff, whole_integer_iff]
  | .real x => by simp [writeAt, Whole.real]
  | .text s => by simp [writeAt, Whole.text]
  | .array [] => by simp [writeAt, whole_array_iff]
  | .array (x :: xs) => by
    simp only [writeAt, Written.append_error_iff, Outcome.error_done, true_and, and_true,
      whole_array_iff, List.forall_mem_cons, writeAt_error_iff (level + 1) x,
      writeMembers_error_iff (level + 1) xs]
  | .object [] => by simp [writeAt, whole_object_iff]
  | .object ((k, x) :: es) => by
    simp only [writeAt, Written.append_error_iff, Outcome.error_done, true_and, and_true,
      whole_object_iff, List.forall_mem_cons, writeAt_error_iff (level + 1) x,
      writeEntries_error_iff (level + 1) es]
  | .refused e => by simp [writeAt, not_whole_refused]
  | .cut [] e => by simp [writeAt, not_whole_cut]
  | .cut ((k, x) :: es) e => by
    simp [writeAt, not_whole_cut, Written.append_error_iff]

theorem writeMembers_error_iff (level : Nat) :
    ∀ xs : List (Json F), (writeMembers level xs).error = none ↔ ∀ x ∈ xs, x.Whole
  | [] => by simp [writeMembers]
  | x :: xs => by
    simp only [writeMembers, Written.append_error_iff, Outcome.error_done, true_and,
      List.forall_mem_cons, writeAt_error_iff level x, writeMembers_error_iff level xs]

theorem writeEntries_error_iff (level : Nat) :
    ∀ es : List (String × Json F), (writeEntries level es).error = none ↔ ∀ e ∈ es, e.2.Whole
  | [] => by simp [writeEntries]
  | (k, x) :: es => by
    simp only [writeEntries, Written.append_error_iff, Outcome.error_done, true_and,
      List.forall_mem_cons, writeAt_error_iff level x, writeEntries_error_iff level es]

end

end

end Json

/-! ### Brackets -/

/-- How many brackets a token opens. -/
def Token.opened : Token F → Int
  | .openArray | .openObject => 1
  | .closeArray | .closeObject => -1
  | _ => 0

namespace Parser

/-- How many brackets are open after some tokens. -/
def depth (ts : List (Token F)) : Int := (ts.map Token.opened).sum

@[simp] theorem depth_nil : depth ([] : List (Token F)) = 0 := rfl

@[simp] theorem depth_cons (t : Token F) (ts : List (Token F)) :
    depth (t :: ts) = t.opened + depth ts := by
  simp [depth]

@[simp] theorem depth_append (ts us : List (Token F)) : depth (ts ++ us) = depth ts + depth us := by
  simp [depth]

/-- A tree that is read closes the brackets it opens; members and entries are read with one bracket
that was open before. -/
theorem depth_value? (fuel : Nat) :
    (∀ {ts rest : List (Token F)} {j : Json F}, value? fuel ts = some (j, rest) →
      depth ts = depth rest) ∧
    (∀ {ts rest : List (Token F)} {xs : List (Json F)}, members? fuel ts = some (xs, rest) →
      depth ts + 1 = depth rest) ∧
    ∀ {es es' : List (String × Json F)} {ts rest : List (Token F)},
      entries? fuel es ts = some (es', rest) → depth ts + 1 = depth rest := by
  induction fuel with
  | zero => simp [value?, members?, entries?]
  | succ fuel ih =>
    obtain ⟨ihvalue, ihmembers, ihentries⟩ := ih
    refine ⟨fun {ts rest j} h => ?_, fun {ts rest xs} h => ?_, fun {es es' ts rest} h => ?_⟩
    -- A value: an opened bracket is closed by the members or entries behind it.
    · unfold value? at h
      split at h
      case h_7 | h_9 =>
        obtain ⟨⟨made, rest'⟩, hmade, h⟩ := Option.bind_eq_some_iff.mp h
        cases h
        have hopen := by first | exact ihmembers hmade | exact ihentries hmade
        simp only [depth_cons, Token.opened]
        omega
      case h_10 => cases h
      all_goals
        cases h
        simp [Token.opened]
    -- Members: after each there is a comma or the last bracket.
    · unfold members? at h
      obtain ⟨⟨x, ts'⟩, hx, h⟩ := Option.bind_eq_some_iff.mp h
      have hfirst := ihvalue hx
      dsimp only at h
      split at h
      · cases h
        simp only [hfirst, depth_cons, Token.opened]
        omega
      · obtain ⟨⟨xs', rest'⟩, hxs, h⟩ := Option.bind_eq_some_iff.mp h
        cases h
        have hothers := ihmembers hxs
        simp only [hfirst, depth_cons, Token.opened]
        omega
      · cases h
    -- Entries: as members, with a key in front of each.
    · unfold entries? at h
      split at h
      · obtain ⟨⟨x, ts'⟩, hx, h⟩ := Option.bind_eq_some_iff.mp h
        have hfirst := ihvalue hx
        dsimp only at h
        split at h
        · cases h
          simp only [depth_cons, Token.opened] at hfirst ⊢
          omega
        · have hothers := ihentries h
          simp only [depth_cons, Token.opened] at hfirst ⊢
          omega
        · cases h
      · cases h

/-- Tokens that open a bracket and do not close it are not a tree's. -/
theorem tree?_of_depth {ts : List (Token F)} (h : 0 < depth ts) : tree? ts = none := by
  unfold tree?
  split
  · rename_i j htree
    have hclosed := (depth_value? _).1 htree
    rw [depth_nil] at hclosed
    omega
  · rfl

/-- A tree opens no bracket that it does not close. -/
theorem depth_tokens [Interchange F] {j : Json F} (hj : j.Sound) : depth j.tokens = 0 := by
  have hread := value?_tokens hj _ [] le_rfl
  rw [List.append_nil] at hread
  exact (depth_value? _).1 hread

end Parser

/-! ### Text that is left -/

namespace Json

open Lexer

variable [Interchange F]

/-- Writing stops, after text of tokens that leave at least so many brackets open. -/
def Stops (w : Written) (n : Int) : Prop :=
  ∃ (s : String) (e : Error) (ts : List (Token F)),
    w = .stopped s e ∧ Ends s.toList ∧ Lexed s.toList ts ∧ n ≤ Parser.depth ts

/-- Writing ends with every bracket closed, or it stops. -/
def Settles (w : Written) : Prop :=
  (∃ ts : List (Token F), Prints w ts ∧ Parser.depth ts = 0) ∨ Stops (F := F) w 0

theorem Stops.mono {w : Written} {m n : Int} (h : Stops (F := F) w n) (hmn : m ≤ n) :
    Stops (F := F) w m := by
  obtain ⟨s, e, ts, hw, hends, hread, hdepth⟩ := h
  exact ⟨s, e, ts, hw, hends, hread, hmn.trans hdepth⟩

/-- Nothing is written. -/
theorem Stops.nothing (e : Error) : Stops (F := F) (.stopped "" e) 0 :=
  ⟨"", e, [], rfl, fun c hc => (by cases hc), Lexed.nil, le_rfl⟩

theorem Written.append_assoc (a b c : Written) :
    Written.append (Written.append a b) c = Written.append a (Written.append b c) := by
  obtain ⟨s, _ | e⟩ := a
  · obtain ⟨t, _ | e⟩ := b <;> simp [Written.append, String.append_assoc]
  · rfl

theorem Written.empty_append (w : Written) : Written.append (.done "") w = w := by
  simp [Written.append, Outcome.done]

/-- The mark before a member is written, unless the member stops writing at once. -/
theorem markBefore_cases (mark : String) (x : Json F) :
    markBefore mark x = mark ∨
      markBefore mark x = "" ∧ ∃ e, ∀ level, writeAt level x = .stopped "" e := by
  unfold markBefore
  split
  · rename_i n
    by_cases hn : Short n
    · exact .inl (if_pos hn)
    · exact .inr ⟨if_neg hn, _, fun level => by rw [writeAt, writeInteger, if_neg hn]⟩
  · exact .inl rfl

/-- A member that stops, or one that is written before something that stops. -/
theorem Stops.member (ps : List (Token F)) {a : String} {x w : Written}
    (hends : ∀ rest, Ends (a.toList ++ rest))
    (hread : ∀ {rest : List Char} {ts : List (Token F)}, Lexed rest ts →
      Lexed (a.toList ++ rest) (ps ++ ts))
    (hx : Settles (F := F) x) (hw : x.error = none → Stops (F := F) w 0) :
    Stops (F := F) (Written.append (.done a) (Written.append x w)) (Parser.depth ps) := by
  rcases hx with ⟨qs, ⟨t, rfl, ht⟩, hqs⟩ | ⟨t, e, ts, rfl, -, hts, hdepth⟩
  · obtain ⟨s, e, ts, rfl, hs, hlexed, hdepth⟩ := hw rfl
    refine ⟨a ++ (t ++ s), e, ps ++ (qs ++ ts), rfl, ?_, ?_, ?_⟩
    · rw [String.toList_append]
      exact hends _
    · rw [String.toList_append, String.toList_append]
      exact hread (ht hs hlexed)
    · rw [Parser.depth_append, Parser.depth_append]
      omega
  · refine ⟨a ++ t, e, ps ++ ts, rfl, ?_, ?_, ?_⟩
    · rw [String.toList_append]
      exact hends _
    · rw [String.toList_append]
      exact hread hts
    · rw [Parser.depth_append]
      omega

/-- The start of a member or an entry does not go on a number. -/
theorem ends_mark {c : Char} (hc : c = ',' ∨ c = '[' ∨ c = '\x7b') (rest : List Char) :
    Ends (c :: rest) := by
  intro c' hc'
  cases hc'
  rcases hc with rfl | rfl | rfl <;> decide

/-- Members that are not all written, or something after them that stops. -/
theorem stops_members {level : Nat} {xs : List (Json F)}
    (hxs : ∀ x ∈ xs, Settles (F := F) (writeAt level x)) {w : Written}
    (hw : w.error = none ∨ Stops (F := F) w 0)
    (h : (Written.append (writeMembers level xs) w).error ≠ none) :
    Stops (F := F) (Written.append (writeMembers level xs) w) 0 := by
  induction xs with
  | nil =>
    rw [writeMembers, Written.empty_append] at h ⊢
    exact hw.resolve_left h
  | cons x xs ih =>
    rw [writeMembers, Written.append_assoc, Written.append_assoc] at h ⊢
    rcases markBefore_cases ("," ++ newLine level) x with hmark | ⟨hmark, e, hstop⟩
    case inr =>
      rw [hmark, hstop, Written.empty_append]
      exact .nothing e
    rw [hmark]
    refine Stops.member [.comma] (fun rest => ?_) (fun {rest ts} hrest => ?_)
      (hxs x List.mem_cons_self) fun hx => ih (fun y hy => hxs y (List.mem_cons_of_mem _ hy)) ?_
    · rw [String.toList_append]
      exact ends_mark (.inl rfl) _
    · rw [String.toList_append, List.append_assoc]
      exact (hrest.newLine level).mark rfl
    · intro hrest
      exact h (Written.append_error_iff.mpr ⟨rfl, Written.append_error_iff.mpr ⟨hx, hrest⟩⟩)

/-- Entries that are not all written, or something after them that stops. -/
theorem stops_entries {level : Nat} {es : List (String × Json F)}
    (hes : ∀ e ∈ es, Settles (F := F) (writeAt level e.2)) {w : Written}
    (hw : w.error = none ∨ Stops (F := F) w 0)
    (h : (Written.append (writeEntries level es) w).error ≠ none) :
    Stops (F := F) (Written.append (writeEntries level es) w) 0 := by
  induction es with
  | nil =>
    rw [writeEntries, Written.empty_append] at h ⊢
    exact hw.resolve_left h
  | cons e es ih =>
    obtain ⟨k, x⟩ := e
    rw [writeEntries, Written.append_assoc, Written.append_assoc] at h ⊢
    refine Stops.member [.comma, .text k, .colon] (fun rest => ?_)
      (fun {rest ts} hrest => ?_) (hes (k, x) List.mem_cons_self)
      fun hx => ih (fun y hy => hes y (List.mem_cons_of_mem _ hy)) ?_
    · simp only [String.toList_append, List.append_assoc]
      exact ends_mark (.inl rfl) _
    · simp only [String.toList_append, List.append_assoc]
      exact ((hrest.key k).newLine level).mark rfl
    · intro hrest
      exact h (Written.append_error_iff.mpr ⟨rfl, Written.append_error_iff.mpr ⟨hx, hrest⟩⟩)

/-- An array that is not written to its end stops writing. -/
theorem stops_array {level : Nat} {xs : List (Json F)}
    (hxs : ∀ x ∈ xs, Settles (F := F) (writeAt (level + 1) x))
    (h : (writeAt level (.array xs)).error ≠ none) :
    Stops (F := F) (writeAt level (.array xs)) 0 := by
  cases xs with
  | nil => exact absurd (by rw [writeAt]; rfl) h
  | cons x xs =>
    rw [writeAt] at h ⊢
    rcases markBefore_cases ("[" ++ newLine (level + 1)) x with hmark | ⟨hmark, e, hstop⟩
    case inr =>
      rw [hmark, hstop, Written.empty_append]
      exact .nothing e
    rw [hmark]
    -- The bracket is written and stays open.
    refine Stops.mono (n := 1) ?_ (by decide)
    refine Stops.member [.openArray] (fun rest => ?_) (fun {rest ts} hrest => ?_)
      (hxs x List.mem_cons_self) fun hx =>
        stops_members (fun y hy => hxs y (List.mem_cons_of_mem _ hy)) (.inl rfl) ?_
    · rw [String.toList_append]
      exact ends_mark (.inr (.inl rfl)) _
    · rw [String.toList_append, List.append_assoc]
      exact (hrest.newLine (level + 1)).mark rfl
    · intro hrest
      exact h (Written.append_error_iff.mpr ⟨rfl, Written.append_error_iff.mpr ⟨hx, hrest⟩⟩)

/-- The text of a key behind the bracket that opens an object. -/
theorem lexed_firstKey (level : Nat) (k : String) {rest : List Char} {ts : List (Token F)}
    (hrest : Lexed rest ts) :
    Lexed ((openBrace ++ newLine (level + 1) ++ quoted k ++ ": ").toList ++ rest)
      ([.openObject, .text k, .colon] ++ ts) := by
  simp only [String.toList_append, List.append_assoc]
  exact ((hrest.key k).newLine (level + 1)).mark rfl

/-- An object that is not written to its end leaves a bracket open. -/
theorem stops_object {level : Nat} {es : List (String × Json F)}
    (hes : ∀ e ∈ es, Settles (F := F) (writeAt (level + 1) e.2))
    (h : (writeAt level (.object es)).error ≠ none) :
    Stops (F := F) (writeAt level (.object es)) 1 := by
  cases es with
  | nil => exact absurd (by rw [writeAt]; rfl) h
  | cons e es =>
    obtain ⟨k, x⟩ := e
    rw [writeAt] at h ⊢
    refine Stops.member [.openObject, .text k, .colon] (fun rest => ?_)
      (lexed_firstKey level k) (hes (k, x) List.mem_cons_self) fun hx =>
        stops_entries (fun y hy => hes y (List.mem_cons_of_mem _ hy)) (.inl rfl) ?_
    · simp only [String.toList_append, List.append_assoc]
      exact ends_mark (.inr (.inr rfl)) _
    · intro hrest
      exact h (Written.append_error_iff.mpr ⟨rfl, Written.append_error_iff.mpr ⟨hx, hrest⟩⟩)

/-- An object with a key that has no written form leaves a bracket open. -/
theorem stops_cut {level : Nat} {es : List (String × Json F)}
    (hes : ∀ e ∈ es, Settles (F := F) (writeAt (level + 1) e.2)) (e : Error) :
    Stops (F := F) (writeAt level (.cut es e)) 1 := by
  cases es with
  | nil =>
    rw [writeAt]
    refine ⟨_, _, [.openObject], rfl, ?_, ?_, le_rfl⟩
    · rw [String.toList_append]
      exact ends_mark (.inr (.inr rfl)) _
    · have hline : Lexed (newLine (level + 1)).toList ([] : List (Token F)) := by
        simpa using Lexed.nil.newLine (level + 1)
      rw [String.toList_append]
      exact hline.mark rfl
  | cons e' es =>
    obtain ⟨k, x⟩ := e'
    rw [writeAt]
    refine Stops.member [.openObject, .text k, .colon] (fun rest => ?_)
      (lexed_firstKey level k) (hes (k, x) List.mem_cons_self) fun hx =>
        stops_entries (fun y hy => hes y (List.mem_cons_of_mem _ hy)) (.inr (.nothing e)) ?_
    · simp only [String.toList_append, List.append_assoc]
      exact ends_mark (.inr (.inr rfl)) _
    · rw [ne_eq, Written.append_error_iff]
      rintro ⟨-, hstop⟩
      cases hstop

/-- A tree of doubles is written with every bracket closed unless something stops writing. -/
theorem settles_of_stops {j : Json F} (hj : j.Doubles) {level : Nat}
    (h : (writeAt level j).error ≠ none → Stops (F := F) (writeAt level j) 0) :
    Settles (F := F) (writeAt level j) := by
  by_cases hdone : (writeAt level j).error = none
  · have hsound := hj.sound hdone
    exact .inl ⟨_, writeAt_lexed hsound level, Parser.depth_tokens hsound⟩
  · exact .inr (h hdone)

/-- Writing a tree ends with every bracket closed, or it stops. -/
theorem settles_writeAt {j : Json F} (hj : j.Doubles) (level : Nat) :
    Settles (F := F) (writeAt level j) := by
  refine settles_of_stops hj fun h => ?_
  induction hj generalizing level with
  | null | bool | real | text => exact absurd (by rw [writeAt]; rfl) h
  | integer n =>
    rw [writeAt] at h ⊢
    have hn : ¬Short n := fun hn => h ((writeInteger_error_iff n).mpr hn)
    rw [writeInteger, if_neg hn]
    exact .nothing _
  | array hxs ih =>
    exact stops_array (fun x hx => settles_of_stops (hxs x hx) (ih x hx (level + 1))) h
  | object hes ih =>
    exact (stops_object (fun x hx => settles_of_stops (hes x hx) (ih x hx (level + 1))) h).mono
      (by decide)
  | refused e =>
    rw [writeAt]
    exact .nothing e
  | cut hes e ih =>
    exact (stops_cut (fun x hx => settles_of_stops (hes x hx) (ih x hx (level + 1))) e).mono
      (by decide)

/-- **A document cut off is not read.**  Where something stops writing an object, the text that
is left is not a tree's. -/
theorem read?_cut {es : List (String × Json F)} (hes : ∀ e ∈ es, e.2.Doubles)
    (h : (object es).write.error ≠ none) : Json.read? (F := F) (object es).write.state = none := by
  obtain ⟨s, e, ts, hs, -, hread, hdepth⟩ :=
    stops_object (fun e he => settles_writeAt (hes e he) 1) h
  have htokens : Lexer.tokens? s = some ts := hread _ le_rfl
  unfold Json.read? Json.write
  rw [hs, Outcome.state_stopped, htokens]
  exact Parser.tree?_of_depth (by omega)

end Json
end Saved
end SlotGrad
