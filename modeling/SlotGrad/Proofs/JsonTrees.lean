import SlotGrad.Proofs.QuotedText
import SlotGrad.Saved.Json.Parser

/-!
# Trees read back

The text of a tree is the text of its tokens, with blanks between some of them that reading
skips; and the tokens of a tree are read as the tree.  The real numbers have to be doubles, and
of the values that an object gives for one key only the last is read.

## Main definitions

* `Json.Doubles`, `Json.Sound` — the trees whose real numbers are doubles, and those of them whose
  members all have a written form.
* `Json.merged` — a tree whose objects give each key once.
* `Json.tokens` — the tokens of a tree.
* `Lexer.Lexed` — some characters have some tokens, however much fuel there is to spare.

## Main results

* `Json.Doubles.sound` — a tree that is written to its end is sound.
* `Json.writeAt_lexed` — a sound tree is written to its end, in text that has its tokens.
* `Parser.value?_tokens` — the tokens of a tree are read as the tree.
* `Json.read?_write` — the text of a tree that is written to its end is read as the tree.
-/

namespace SlotGrad
namespace Saved

variable {F : Type}

namespace Json

/-- Every real number of the tree is a double. -/
inductive Doubles [Interchange F] : Json F → Prop where
  | null : Doubles .null
  | bool (b : Bool) : Doubles (.bool b)
  | integer (n : Int) : Doubles (.integer n)
  | real {x : F} (hx : IsDouble x) : Doubles (.real x)
  | text (s : String) : Doubles (.text s)
  | array {xs : List (Json F)} (hxs : ∀ x ∈ xs, Doubles x) : Doubles (.array xs)
  | object {es : List (String × Json F)} (hes : ∀ e ∈ es, Doubles e.2) : Doubles (.object es)
  | refused (e : Error) : Doubles (.refused e)
  | cut {es : List (String × Json F)} (hes : ∀ e ∈ es, Doubles e.2) (e : Error) :
    Doubles (.cut es e)

/-- Every member of the tree has a written form, and every real number is a double. -/
inductive Sound [Interchange F] : Json F → Prop where
  | null : Sound .null
  | bool (b : Bool) : Sound (.bool b)
  | integer {n : Int} (hn : Short n) : Sound (.integer n)
  | real {x : F} (hx : IsDouble x) : Sound (.real x)
  | text (s : String) : Sound (.text s)
  | array {xs : List (Json F)} (hxs : ∀ x ∈ xs, Sound x) : Sound (.array xs)
  | object {es : List (String × Json F)} (hes : ∀ e ∈ es, Sound e.2) : Sound (.object es)

mutual

/-- The tree with one entry for each key of an object: in the place of the first one, with the value
of the last one. -/
def merged : Json F → Json F
  | array xs => array (mergedAll xs)
  | object es => object (mergedEntries [] es)
  | j => j

/-- The trees with one entry for each key. -/
def mergedAll : List (Json F) → List (Json F)
  | [] => []
  | x :: xs => merged x :: mergedAll xs

/-- The entries one after another, each put in the place of its key among those already there. -/
def mergedEntries (done : List (String × Json F)) : List (String × Json F) → List (String × Json F)
  | [] => done
  | (k, x) :: es => mergedEntries (Parser.putEntry done k (merged x)) es

end

theorem mergedAll_eq_map (xs : List (Json F)) : mergedAll xs = xs.map merged := by
  induction xs with
  | nil => rfl
  | cons x xs ih => rw [mergedAll, ih, List.map_cons]

/-- The entry of a new key comes after all others. -/
theorem putEntry_of_notMem {es : List (String × Json F)} {k : String} (hk : k ∉ es.map Prod.fst)
    (x : Json F) : Parser.putEntry es k x = es ++ [(k, x)] := by
  unfold Parser.putEntry
  rw [if_neg]
  intro hany
  obtain ⟨e, he, heq⟩ := List.any_eq_true.mp hany
  exact hk (List.mem_map.mpr ⟨e, he, by simpa using heq⟩)

/-- Entries of different keys stay as they are, but for their values. -/
theorem mergedEntries_of_nodup {es : List (String × Json F)} (done : List (String × Json F))
    (hkeys : ((done ++ es).map Prod.fst).Nodup) :
    mergedEntries done es = done ++ es.map fun e => (e.1, e.2.merged) := by
  induction es generalizing done with
  | nil => rw [mergedEntries, List.map_nil, List.append_nil]
  | cons e es ih =>
    obtain ⟨k, x⟩ := e
    have hk : k ∉ done.map Prod.fst := by
      intro hmem
      rw [List.map_append, List.nodup_append] at hkeys
      exact hkeys.2.2 k hmem k (by simp) rfl
    rw [mergedEntries, putEntry_of_notMem hk, ih _ (by simpa using hkeys)]
    simp

theorem merged_object {es : List (String × Json F)} (hkeys : (es.map Prod.fst).Nodup) :
    (object es).merged = object (es.map fun e => (e.1, e.2.merged)) := by
  rw [merged, mergedEntries_of_nodup [] hkeys, List.nil_append]

theorem merged_array (xs : List (Json F)) : (array xs).merged = array (xs.map merged) := by
  rw [merged, mergedAll_eq_map]

/-! ### Tokens -/

mutual

/-- The tokens of a tree.  A member without a written form has none. -/
def tokens : Json F → List (Token F)
  | null => [.null]
  | bool b => [.bool b]
  | integer n => [.integer n]
  | real x => [.real x]
  | text s => [.text s]
  | array [] => [.openArray, .closeArray]
  | array (x :: xs) => .openArray :: (tokens x ++ memberTokens xs)
  | object [] => [.openObject, .closeObject]
  | object ((k, x) :: es) => .openObject :: .text k :: .colon :: (tokens x ++ entryTokens es)
  | refused _ => []
  | cut .. => []

/-- The tokens of further members, up to the mark that closes the array. -/
def memberTokens : List (Json F) → List (Token F)
  | [] => [.closeArray]
  | x :: xs => .comma :: (tokens x ++ memberTokens xs)

/-- The tokens of further entries, up to the mark that closes the object. -/
def entryTokens : List (String × Json F) → List (Token F)
  | [] => [.closeObject]
  | (k, x) :: es => .comma :: .text k :: .colon :: (tokens x ++ entryTokens es)

end

end Json

/-! ### Text with given tokens -/

namespace Lexer

variable [Interchange F]

/-- A token does not start with a blank. -/
theorem token?_blank {c : Char} (hc : isBlank c = true) (rest : List Char) :
    token? (F := F) (c :: rest) = none := by
  unfold isBlank at hc
  simp only [Bool.or_eq_true, decide_eq_true_eq] at hc
  rcases hc with ((rfl | rfl) | rfl) | rfl <;> rfl

/-- The tokens of some characters, whatever fuel there is to spare. -/
def Lexed (cs : List Char) (ts : List (Token F)) : Prop :=
  ∀ fuel, cs.length ≤ fuel → tokensWith? fuel cs = some ts

theorem Lexed.nil : Lexed [] ([] : List (Token F)) := by
  intro fuel _
  cases fuel <;> rfl

/-- A blank before other characters is skipped. -/
theorem Lexed.blank {c : Char} {cs : List Char} {ts : List (Token F)} (hc : isBlank c = true)
    (h : Lexed cs ts) : Lexed (c :: cs) ts := by
  intro fuel hfuel
  rw [← h fuel (Nat.le_of_succ_le hfuel)]
  unfold tokensWith?
  rw [List.dropWhile_cons_of_pos hc]

/-- A token before other characters is the first of the tokens. -/
theorem Lexed.token {s rest : List Char} {t : Token F} {ts : List (Token F)}
    (ht : token? (s ++ rest) = some (t, rest)) (hs : s ≠ []) (h : Lexed rest ts) :
    Lexed (s ++ rest) (t :: ts) := by
  obtain ⟨c, cs, rfl⟩ := List.exists_cons_of_ne_nil hs
  have hc : isBlank c = false := by
    by_contra hblank
    rw [List.cons_append, token?_blank (by simpa using hblank)] at ht
    cases ht
  intro fuel hfuel
  obtain ⟨fuel, rfl⟩ : ∃ n, fuel = n + 1 := by
    cases fuel with
    | zero => simp at hfuel
    | succ n => exact ⟨n, rfl⟩
  have hrest := h fuel (by simp at hfuel; omega)
  unfold tokensWith?
  rw [List.cons_append, List.dropWhile_cons_of_neg (by simp [hc])]
  rw [List.cons_append] at ht
  simp only [ht, hrest, bind, Option.bind, pure]

/-- A mark before other characters. -/
theorem Lexed.mark {c : Char} {rest : List Char} {t : Token F} {ts : List (Token F)}
    (ht : token? (c :: rest) = some (t, rest)) (h : Lexed rest ts) :
    Lexed (c :: rest) (t :: ts) :=
  Lexed.token (s := [c]) ht (by simp) h

/-- A new line before other characters is skipped. -/
theorem Lexed.newLine {cs : List Char} {ts : List (Token F)} (level : Nat) (h : Lexed cs ts) :
    Lexed ((Json.newLine level).toList ++ cs) ts := by
  have hblanks : ∀ n, Lexed (List.replicate n ' ' ++ cs) ts := by
    intro n
    induction n with
    | zero => exact h
    | succ n ih => exact ih.blank rfl
  have htext : (Json.newLine level).toList ++ cs
      = '\n' :: (List.replicate (2 * level) ' ' ++ cs) := by
    unfold Json.newLine
    simp
  rw [htext]
  exact (hblanks _).blank rfl

/-- A key before the text of its value. -/
theorem Lexed.key {cs : List Char} {ts : List (Token F)} (k : String) (h : Lexed cs ts) :
    Lexed ((Json.quoted k).toList ++ (": ".toList ++ cs)) (.text k :: .colon :: ts) := by
  have hcolon : Lexed (": ".toList ++ cs) (.colon :: ts) := (h.blank rfl).mark rfl
  exact hcolon.token (token?_quoted k _) (by simp [Json.quoted])

theorem ends_newLine (level : Nat) (rest : List Char) :
    Ends ((Json.newLine level).toList ++ rest) := by
  intro c hc
  have hfirst : c = '\n' := by
    unfold Json.newLine at hc
    simpa [eq_comm] using hc
  rw [hfirst]
  decide

end Lexer

/-! ### Writing -/

namespace Json

open Lexer

variable [Interchange F]

@[simp] theorem Written.done_append (a b : String) :
    Written.append (.done a) (.done b) = .done (a ++ b) := rfl

theorem Written.append_error {a b : Written} (h : (Written.append a b).error = none) :
    a.error = none ∧ b.error = none := by
  obtain ⟨s, e⟩ := a
  cases e with
  | none => exact ⟨rfl, h⟩
  | some e => cases h

/-- An integer is written exactly if its digits are not too many. -/
theorem writeInteger_error_iff (n : Int) : (writeInteger n).error = none ↔ Short n := by
  unfold writeInteger
  by_cases hn : Short n
  · simp [hn]
  · simp [hn]

/-- The mark before a member is written if the member is. -/
theorem markBefore_of_error {level : Nat} {x : Json F} (h : (writeAt level x).error = none)
    (mark : String) : markBefore mark x = mark := by
  unfold markBefore
  split
  · rw [writeAt] at h
    exact if_pos ((writeInteger_error_iff _).mp h)
  · rfl

theorem error_writeMembers {level : Nat} {xs : List (Json F)}
    (h : (writeMembers level xs).error = none) : ∀ x ∈ xs, (writeAt level x).error = none := by
  induction xs with
  | nil => simp
  | cons x xs ih =>
    rw [writeMembers] at h
    obtain ⟨hx, hxs⟩ := Written.append_error (Written.append_error h).2
    exact List.forall_mem_cons.mpr ⟨hx, ih hxs⟩

theorem error_writeEntries {level : Nat} {es : List (String × Json F)}
    (h : (writeEntries level es).error = none) : ∀ e ∈ es, (writeAt level e.2).error = none := by
  induction es with
  | nil => simp
  | cons e es ih =>
    rw [writeEntries] at h
    obtain ⟨he, hes⟩ := Written.append_error (Written.append_error h).2
    exact List.forall_mem_cons.mpr ⟨he, ih hes⟩

/-- A tree that is written to its end has no member without a written form. -/
theorem Doubles.sound {j : Json F} (hj : Doubles j) {level : Nat}
    (h : (writeAt level j).error = none) : Sound j := by
  induction hj generalizing level with
  | null => exact .null
  | bool b => exact .bool b
  | integer n =>
    rw [writeAt] at h
    exact .integer ((writeInteger_error_iff n).mp h)
  | real hx => exact .real hx
  | text s => exact .text s
  | @array xs hxs ih =>
    cases xs with
    | nil => exact .array (by simp)
    | cons x xs =>
      rw [writeAt] at h
      -- What was written to its end was written part by part, each to its end.
      obtain ⟨hx, hothers⟩ := Written.append_error (Written.append_error h).2
      have hall : ∀ y ∈ x :: xs, (writeAt (level + 1) y).error = none :=
        List.forall_mem_cons.mpr ⟨hx, error_writeMembers (Written.append_error hothers).1⟩
      exact .array fun y hy => ih y hy (hall y hy)
  | @object es hes ih =>
    cases es with
    | nil => exact .object (by simp)
    | cons e es =>
      rw [writeAt] at h
      obtain ⟨he, hothers⟩ := Written.append_error (Written.append_error h).2
      have hall : ∀ y ∈ e :: es, (writeAt (level + 1) y.2).error = none :=
        List.forall_mem_cons.mpr ⟨he, error_writeEntries (Written.append_error hothers).1⟩
      exact .object fun y hy => ih y hy (hall y hy)
  | refused e =>
    rw [writeAt] at h
    cases h
  | @cut es hes e ih =>
    cases es with
    | nil =>
      rw [writeAt] at h
      cases h
    | cons k es =>
      rw [writeAt] at h
      -- A cut tree stops behind its last entry.
      obtain ⟨-, hlast⟩ :=
        Written.append_error (Written.append_error (Written.append_error h).2).2
      cases hlast

/-- Writing ends without an error, in text that has the given tokens whatever follows that cannot
belong to a number. -/
def Prints (w : Written) (p : List (Token F)) : Prop :=
  ∃ s : String, w = .done s ∧ ∀ {rest : List Char} {ts : List (Token F)}, Ends rest →
    Lexed rest ts →
    Lexed (s.toList ++ rest) (p ++ ts)

/-- Text that is one token. -/
theorem Prints.single {s : String} {t : Token F}
    (ht : ∀ {rest : List Char}, Ends rest → token? (s.toList ++ rest) = some (t, rest)) :
    Prints (.done s) [t] := by
  refine ⟨s, rfl, fun hrest h => h.token (ht hrest) ?_⟩
  -- Nothing is not a token.
  intro hs
  have hnothing := @ht [] (by intro c hc; cases hc)
  rw [hs] at hnothing
  cases hnothing

/-- Further members follow the first one, each behind a comma on a new line. -/
theorem writeMembers_lexed {level : Nat} {xs : List (Json F)}
    (hxs : ∀ x ∈ xs, Prints (writeAt level x) x.tokens) :
    ∃ s : String, writeMembers level xs = .done s ∧
      ∀ {rest : List Char} {ts : List (Token F)}, Ends rest → Lexed rest (.closeArray :: ts) →
        Ends (s.toList ++ rest) ∧ Lexed (s.toList ++ rest) (memberTokens xs ++ ts) := by
  induction xs with
  | nil => exact ⟨"", rfl, fun hrest h => ⟨hrest, h⟩⟩
  | cons x xs ih =>
    obtain ⟨first, hfirst, hread⟩ := hxs x List.mem_cons_self
    obtain ⟨others, hothers, hreads⟩ := ih fun y hy => hxs y (List.mem_cons_of_mem _ hy)
    refine ⟨"," ++ newLine level ++ (first ++ others), ?_, fun {rest ts} hrest h => ?_⟩
    · rw [writeMembers, markBefore_of_error (congrArg Outcome.error hfirst), hfirst, hothers]
      rfl
    · obtain ⟨hends, hlexed⟩ := hreads hrest h
      have hnext := (hread hends hlexed).newLine level
      simp only [String.toList_append, List.append_assoc, memberTokens, List.cons_append]
      exact ⟨by intro c hc; cases hc; decide, hnext.mark rfl⟩

/-- Further entries follow the first one, each behind a comma on a new line. -/
theorem writeEntries_lexed {level : Nat} {es : List (String × Json F)}
    (hes : ∀ e ∈ es, Prints (writeAt level e.2) e.2.tokens) :
    ∃ s : String, writeEntries level es = .done s ∧
      ∀ {rest : List Char} {ts : List (Token F)}, Ends rest → Lexed rest (.closeObject :: ts) →
        Ends (s.toList ++ rest) ∧ Lexed (s.toList ++ rest) (entryTokens es ++ ts) := by
  induction es with
  | nil => exact ⟨"", rfl, fun hrest h => ⟨hrest, h⟩⟩
  | cons e es ih =>
    obtain ⟨k, x⟩ := e
    obtain ⟨first, hfirst, hread⟩ := hes (k, x) List.mem_cons_self
    obtain ⟨others, hothers, hreads⟩ := ih fun y hy => hes y (List.mem_cons_of_mem _ hy)
    refine ⟨"," ++ newLine level ++ quoted k ++ ": " ++ (first ++ others), ?_,
      fun {rest ts} hrest h => ?_⟩
    · rw [writeEntries, hfirst, hothers]
      rfl
    · obtain ⟨hends, hlexed⟩ := hreads hrest h
      have hnext := ((hread hends hlexed).key k).newLine level
      simp only [String.toList_append, List.append_assoc, entryTokens, List.cons_append]
      exact ⟨by intro c hc; cases hc; decide, hnext.mark rfl⟩

/-- **A tree is written as its tokens.**  Writing does not stop, and the text has the tokens of the
tree at every level. -/
theorem writeAt_lexed {j : Json F} (hj : Sound j) (level : Nat) :
    Prints (writeAt level j) j.tokens := by
  induction hj generalizing level with
  | null => exact Prints.single fun _ => token?_word (w := "null") (by simp [words]) _
  | bool b =>
    cases b with
    | false => exact Prints.single fun _ => token?_word (w := "false") (by simp [words]) _
    | true => exact Prints.single fun _ => token?_word (w := "true") (by simp [words]) _
  | integer hn =>
    rw [writeAt, writeInteger, if_pos hn]
    exact Prints.single fun hrest => token?_integer hn hrest
  | real hx => exact Prints.single fun hrest => token?_numberText hx hrest
  | text s => exact Prints.single fun _ => token?_quoted s _
  | array hxs ih =>
    rename_i xs
    cases xs with
    | nil => exact ⟨"[]", rfl, fun _ h => (h.mark rfl).mark rfl⟩
    | cons x xs =>
      obtain ⟨first, hfirst, hread⟩ := ih x List.mem_cons_self (level + 1)
      obtain ⟨others, hothers, hreads⟩ :=
        writeMembers_lexed fun y hy => ih y (List.mem_cons_of_mem _ hy) (level + 1)
      refine ⟨"[" ++ newLine (level + 1) ++ (first ++ (others ++ (newLine level ++ "]"))), ?_,
        fun {rest ts} _ h => ?_⟩
      -- The first member is written to its end, so the bracket is in front of it in any case.
      · rw [writeAt, markBefore_of_error (congrArg Outcome.error hfirst), hfirst, hothers]
        rfl
      · have hclose : Lexed ((newLine level).toList ++ (']' :: rest)) (.closeArray :: ts) :=
          (h.mark rfl).newLine level
        obtain ⟨hends, hlexed⟩ := hreads (ends_newLine level _) hclose
        have hnext := (hread hends hlexed).newLine (level + 1)
        simp only [String.toList_append, List.append_assoc, tokens, List.cons_append]
        exact hnext.mark rfl
  | object hes ih =>
    rename_i es
    cases es with
    | nil => exact ⟨openBrace ++ closeBrace, rfl, fun _ h => (h.mark rfl).mark rfl⟩
    | cons e es =>
      obtain ⟨k, x⟩ := e
      obtain ⟨first, hfirst, hread⟩ := ih (k, x) List.mem_cons_self (level + 1)
      obtain ⟨others, hothers, hreads⟩ :=
        writeEntries_lexed fun y hy => ih y (List.mem_cons_of_mem _ hy) (level + 1)
      refine ⟨openBrace ++ newLine (level + 1) ++ quoted k ++ ": "
        ++ (first ++ (others ++ (newLine level ++ closeBrace))), ?_, fun {rest ts} _ h => ?_⟩
      · rw [writeAt, hfirst, hothers]
        rfl
      · have hclose : Lexed ((newLine level).toList ++ ('\x7d' :: rest)) (.closeObject :: ts) :=
          (h.mark rfl).newLine level
        obtain ⟨hends, hlexed⟩ := hreads (ends_newLine level _) hclose
        have hnext := ((hread hends hlexed).key k).newLine (level + 1)
        simp only [String.toList_append, List.append_assoc, tokens, List.cons_append]
        exact hnext.mark rfl

end Json

/-! ### Reading -/

namespace Parser

open Json

/-- An array that is not closed at once has members. -/
theorem value?_openArray {fuel : Nat} {ts : List (Token F)} (hts : ts.head? ≠ some .closeArray) :
    value? (fuel + 1) (.openArray :: ts)
      = (members? fuel ts).map fun p => (.array p.1, p.2) := by
  rw [value?]
  · cases members? fuel ts <;> rfl
  · rintro ts' rfl
    exact hts rfl

/-- No tree starts with the mark that closes an array. -/
theorem head?_tokens [Interchange F] {j : Json F} (hj : Sound j) (ts : List (Token F)) :
    (j.tokens ++ ts).head? ≠ some .closeArray := by
  cases hj with
  | @array xs _ => cases xs <;> simp [tokens]
  | @object es _ => cases es <;> simp [tokens]
  | _ => simp [tokens]

/-- The tree is read at the start of its tokens with one unit of fuel for each. -/
def Reads (j : Json F) : Prop :=
  ∀ (fuel : Nat) (ts : List (Token F)), j.tokens.length ≤ fuel →
    value? fuel (j.tokens ++ ts) = some (j.merged, ts)

/-- The members of an array are read up to its closing mark. -/
theorem members?_tokens {x : Json F} {xs : List (Json F)} (hx : Reads x) (hxs : ∀ y ∈ xs, Reads y)
    {fuel : Nat} (hfuel : x.tokens.length + (memberTokens xs).length ≤ fuel) (ts : List (Token F)) :
    members? fuel (x.tokens ++ (memberTokens xs ++ ts)) = some (mergedAll (x :: xs), ts) := by
  induction xs generalizing x fuel with
  | nil =>
    rw [memberTokens, List.length_singleton] at hfuel
    obtain ⟨fuel, rfl⟩ := Nat.exists_eq_succ_of_ne_zero (n := fuel) (by omega)
    rw [members?, hx fuel _ (by omega)]
    rfl
  | cons y ys ih =>
    rw [memberTokens, List.length_cons, List.length_append] at hfuel
    obtain ⟨fuel, rfl⟩ := Nat.exists_eq_succ_of_ne_zero (n := fuel) (by omega)
    have hothersFuel : y.tokens.length + (memberTokens ys).length ≤ fuel := by omega
    have hothers := ih (hxs y List.mem_cons_self) (fun z hz => hxs z (List.mem_cons_of_mem _ hz))
      hothersFuel
    rw [members?, hx fuel _ (by omega), memberTokens]
    simp only [List.cons_append, List.append_assoc, bind, Option.bind, hothers]
    rfl

/-- The entries of an object are read up to its closing mark, behind those already read. -/
theorem entries?_tokens {k : String} {x : Json F} {es : List (String × Json F)} (hx : Reads x)
    (hes : ∀ e ∈ es, Reads e.2) (done : List (String × Json F)) {fuel : Nat}
    (hfuel : x.tokens.length + (entryTokens es).length ≤ fuel) (ts : List (Token F)) :
    entries? fuel done (.text k :: .colon :: (x.tokens ++ (entryTokens es ++ ts)))
      = some (mergedEntries done ((k, x) :: es), ts) := by
  induction es generalizing k x done fuel with
  | nil =>
    rw [entryTokens, List.length_singleton] at hfuel
    obtain ⟨fuel, rfl⟩ := Nat.exists_eq_succ_of_ne_zero (n := fuel) (by omega)
    rw [entries?, hx fuel _ (by omega), entryTokens]
    rfl
  | cons e es ih =>
    obtain ⟨l, y⟩ := e
    rw [entryTokens, List.length_cons, List.length_cons, List.length_cons, List.length_append]
      at hfuel
    obtain ⟨fuel, rfl⟩ := Nat.exists_eq_succ_of_ne_zero (n := fuel) (by omega)
    have hy : Reads y := hes (l, y) List.mem_cons_self
    have hothersFuel : y.tokens.length + (entryTokens es).length ≤ fuel := by omega
    have hothers := ih (k := l) hy (fun z hz => hes z (List.mem_cons_of_mem _ hz))
      (putEntry done k x.merged) hothersFuel
    rw [entries?, hx fuel _ (by omega), entryTokens]
    simp only [List.cons_append, List.append_assoc, bind, Option.bind, hothers]
    rfl

/-- **The tokens of a tree are read as the tree**, whatever follows. -/
theorem value?_tokens [Interchange F] {j : Json F} (hj : Sound j) : Reads j := by
  induction hj with
  | null | bool | integer | real | text =>
    intro fuel ts hfuel
    have hpos : fuel ≠ 0 := by
      rintro rfl
      simp [tokens] at hfuel
    obtain ⟨fuel, rfl⟩ := Nat.exists_eq_succ_of_ne_zero hpos
    rfl
  | @array xs hxs ih =>
    intro fuel ts hfuel
    have hpos : fuel ≠ 0 := by
      cases xs <;> simp only [tokens, List.length_cons] at hfuel <;> omega
    obtain ⟨fuel, rfl⟩ := Nat.exists_eq_succ_of_ne_zero hpos
    cases xs with
    | nil => rfl
    | cons x xs =>
      rw [tokens, List.length_cons, List.length_append] at hfuel
      -- The two brackets leave fuel for the tokens between them.
      have hmembersFuel : x.tokens.length + (memberTokens xs).length ≤ fuel := by omega
      have hmembers := members?_tokens (ih x List.mem_cons_self)
        (fun y hy => ih y (List.mem_cons_of_mem _ hy)) hmembersFuel ts
      rw [tokens, List.cons_append, List.append_assoc,
        value?_openArray (head?_tokens (hxs x List.mem_cons_self) _), hmembers]
      rfl
  | @object es hes ih =>
    intro fuel ts hfuel
    have hpos : fuel ≠ 0 := by
      cases es <;> simp only [tokens, List.length_cons] at hfuel <;> omega
    obtain ⟨fuel, rfl⟩ := Nat.exists_eq_succ_of_ne_zero hpos
    cases es with
    | nil => rfl
    | cons e es =>
      obtain ⟨k, x⟩ := e
      rw [tokens] at hfuel
      simp only [List.length_cons, List.length_append] at hfuel
      have hx : Reads x := ih (k, x) List.mem_cons_self
      have hentriesFuel : x.tokens.length + (entryTokens es).length ≤ fuel := by omega
      have hentries := entries?_tokens (k := k) hx
        (fun y hy => ih y (List.mem_cons_of_mem _ hy)) [] hentriesFuel ts
      rw [tokens, List.cons_append, List.cons_append, List.cons_append, List.append_assoc]
      simp only [value?, hentries]
      rfl

end Parser

/-- **A written tree reads back.**  If nothing stopped writing, then the text is read as the
tree. -/
theorem Json.read?_write [Interchange F] {j : Json F} (hj : j.Doubles) (h : j.write.error = none) :
    Json.read? j.write.state = some j.merged := by
  have hsound : j.Sound := hj.sound h
  obtain ⟨s, hs, hlexed⟩ := writeAt_lexed hsound 0
  have htokens : Lexer.tokens? s = some j.tokens := by
    have hall := @hlexed [] [] (by intro c hc; cases hc) Lexer.Lexed.nil
    rw [List.append_nil, List.append_nil] at hall
    exact hall _ le_rfl
  have htree := Parser.value?_tokens hsound (2 * j.tokens.length + 1) [] (by omega)
  rw [List.append_nil] at htree
  unfold Json.read? Parser.tree? Json.write
  rw [hs, Outcome.state_done, htokens]
  simp only [bind, Option.bind, htree]

end Saved
end SlotGrad
