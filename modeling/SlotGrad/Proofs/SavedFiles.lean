import Mathlib.Data.List.TakeWhile
import SlotGrad.Proofs.SavedNets
import SlotGrad.Saved.File

/-!
# Saved nets read back

A net is saved in two files of one stem, the document and the weights, and weights only if there are
any.  Whatever other files there are, reading finds both again: a file that is written is read back,
and writing another one leaves it alone.  Files of an earlier net may be left under the name of the
weights, but a document without arrays never asks for them.

There is one thing that the document does not decide: the weights are looked for even where
there are none, and their path is longer than that of the document by three bytes.

## Main results

* `Directory.locate_append_eq_ok` — what it means that a path leads to a place.
* `Directory.read_write`, `Directory.read_write_of_ne` — access to files that were written.
* `Saved.load_save` — a saved net is loaded again.
* `Saved.load_save_of_not_fits` — it is not if the path of the weights is too long.
-/

namespace SlotGrad
namespace Saved

variable {F : Type}

/-! ### Places -/

namespace Directory

/-- The way through directories does not depend on files. -/
theorem enter_eq_ok {d d' : Directory} {place next : FilePath} {name : String}
    (h : d.enter place name = .ok next) : d'.enter place name = .ok next := by
  unfold enter at h ⊢
  split at h
  · rename_i hup
    rw [if_pos hup]
    exact h
  · rename_i hup
    rw [if_neg hup]
    obtain ⟨there, hthere, h⟩ := bind_eq_ok.mp h
    rw [hthere, ok_bind]
    split at h
    · rename_i hdirectory
      rw [if_pos hdirectory]
      exact h
    · split at h <;> cases h

theorem foldlM_enter {d d' : Directory} {names : List String} {place next : FilePath}
    (h : names.foldlM d.enter place = .ok next) : names.foldlM d'.enter place = .ok next := by
  induction names generalizing place with
  | nil => exact h
  | cons name names ih =>
    rw [List.foldlM_cons] at h ⊢
    obtain ⟨there, hthere, h⟩ := bind_eq_ok.mp h
    rw [enter_eq_ok hthere, ok_bind]
    exact ih h

/-- A path of directories and a name leads to the member of the name. -/
theorem locate_append (d : Directory) (dirs : FilePath) (name : String) :
    d.locate (dirs ++ [name])
      = (if (dirs ++ [name]).any (·.contains '\x00') then .error .badValue
        else if d.room < (dirs ++ [name]).textSize then .error .nameTooLong
        else do member (← dirs.foldlM d.enter []) name) := by
  unfold locate
  rw [List.dropLast_concat, List.getLast?_concat]
  split
  · rfl
  · split <;> rfl

theorem any_contains_iff {p : FilePath} :
    p.any (·.contains '\x00') = true ↔ ∃ n ∈ p, '\x00' ∈ n.toList := by
  simp only [List.any_eq_true, String.contains_char_eq, decide_eq_true_eq]

theorem fits_append {d : Directory} {dirs : FilePath} {name : String} :
    d.Fits (dirs ++ [name]) ↔
      (dirs ++ [name]).textSize ≤ d.room ∧ name.utf8ByteSize ≤ longestName := by
  unfold Fits
  rw [List.getLast?_concat]
  simp

/-- **What it means that a path leads to a place**: no name holds the character that ends texts,
neither the last name nor the path is too long, the names before the last lead through
directories, and these are the same whatever files there are. -/
theorem locate_append_eq_ok {d : Directory} {dirs : FilePath} {name : String} {place : FilePath} :
    d.locate (dirs ++ [name]) = .ok place ↔
      (∀ n ∈ dirs ++ [name], '\x00' ∉ n.toList) ∧ d.Fits (dirs ++ [name]) ∧
        ∃ there, (∀ d' : Directory, dirs.foldlM d'.enter [] = .ok there) ∧
          place = there ++ [name] := by
  rw [locate_append, fits_append]
  constructor
  · intro h
    split at h
    · cases h
    · rename_i hnul
      split at h
      · cases h
      · rename_i hroom
        obtain ⟨there, hthere, h⟩ := bind_eq_ok.mp h
        unfold member at h
        split at h <;> cases h
        rename_i hlength
        exact ⟨fun n hn hmem => hnul (any_contains_iff.mpr ⟨n, hn, hmem⟩), ⟨by omega, by omega⟩,
          there, fun d' => foldlM_enter hthere, rfl⟩
  · rintro ⟨hnul, ⟨hroom, hlength⟩, there, hthere, rfl⟩
    have hnone : ¬(dirs ++ [name]).any (·.contains '\x00') = true := fun hany => by
      obtain ⟨n, hn, hmem⟩ := any_contains_iff.mp hany
      exact hnul n hn hmem
    rw [if_neg hnone, if_neg (by omega), hthere, ok_bind, member, if_neg (by omega)]

/-- A path that is too long leads nowhere. -/
theorem locate_append_of_not_fits {d : Directory} {dirs there : FilePath} {name : String}
    (hnul : ∀ n ∈ dirs ++ [name], '\x00' ∉ n.toList) (hthere : dirs.foldlM d.enter [] = .ok there)
    (h : ¬d.Fits (dirs ++ [name])) : d.locate (dirs ++ [name]) = .error .nameTooLong := by
  have hnone : ¬(dirs ++ [name]).any (·.contains '\x00') = true := fun hany => by
    obtain ⟨n, hn, hmem⟩ := any_contains_iff.mp hany
    exact hnul n hn hmem
  rw [fits_append] at h
  rw [locate_append, if_neg hnone]
  by_cases hroom : d.room < (dirs ++ [name]).textSize
  · rw [if_pos hroom]
  · rw [if_neg hroom, hthere, ok_bind, member, if_pos (by omega)]

/-- Where a path leads depends on the room for paths only, if its directories are there. -/
theorem locate_append_congr {d d' : Directory} {dirs there : FilePath}
    (hthere : ∀ d : Directory, dirs.foldlM d.enter [] = .ok there) (hroom : d'.room = d.room)
    (name : String) : d'.locate (dirs ++ [name]) = d.locate (dirs ++ [name]) := by
  rw [locate_append, locate_append, hthere, hthere, hroom]

@[simp] theorem room_put (d : Directory) (place : FilePath) (content : Bytes) :
    (d.put place content).room = d.room := rfl

/-- Whether a path is too long depends on the room for paths only. -/
theorem fits_congr {d d' : Directory} (hroom : d'.room = d.room) (p : FilePath) :
    d'.Fits p ↔ d.Fits p := by
  unfold Fits
  rw [hroom]

theorem find?_put (d : Directory) (place : FilePath) (content : Bytes) :
    (d.put place content).find? place = some content := by
  simp [find?, put]

theorem find?_without {place other : FilePath} (h : other ≠ place) (d : Directory) :
    (d.without place).find? other = d.find? other := by
  obtain ⟨files, room⟩ := d
  unfold find? without
  dsimp only
  induction files with
  | nil => rfl
  | cons f files ih =>
    by_cases hf : f.1 = place
    · have hother : (other == f.1) = false := beq_eq_false_iff_ne.mpr (hf ▸ h)
      rw [List.filter_cons_of_neg (by simp [hf]), ih, List.lookup_cons, hother]
    · rw [List.filter_cons_of_pos (by simp [hf]), List.lookup_cons, List.lookup_cons, ih]

/-- A content that is put at a place changes no other place. -/
theorem find?_put_of_ne {place other : FilePath} (h : other ≠ place) (d : Directory)
    (content : Bytes) : (d.put place content).find? other = d.find? other := by
  rw [← find?_without h d]
  unfold find? put
  rw [List.lookup_cons, beq_eq_false_iff_ne.mpr h]

/-- A completed write, written down. -/
theorem write_eq_ok {d d' : Directory} {p : FilePath} {content : Bytes} :
    d.write p content = .ok d' ↔ ∃ place, d.locate p = .ok place ∧ isDirectory place = false ∧
      d' = d.put place content := by
  unfold write
  rw [bind_eq_ok]
  refine exists_congr fun place => and_congr_right fun _ => ?_
  cases isDirectory place with
  | true =>
    constructor
    · intro h
      cases h
    · rintro ⟨h, -⟩
      cases h
  | false =>
    constructor
    · intro h
      cases h
      exact ⟨rfl, rfl⟩
    · rintro ⟨-, rfl⟩
      rfl

/-- A write does not change the room for paths. -/
theorem room_write {d d' : Directory} {p : FilePath} {content : Bytes}
    (h : d.write p content = .ok d') : d'.room = d.room := by
  obtain ⟨place, -, -, rfl⟩ := write_eq_ok.mp h
  rfl

/-- What is read at a place that is found. -/
theorem read_eq {d : Directory} {p place : FilePath} (h : d.locate p = .ok place)
    (hplace : isDirectory place = false) :
    d.read p = Fallible.ofOption .missingFile (d.find? place) := by
  unfold read
  rw [h, ok_bind, hplace]
  rfl

/-- A file that is written is read back. -/
theorem read_write {d d' : Directory} {dirs : FilePath} {name : String} {content : Bytes}
    (h : d.write (dirs ++ [name]) content = .ok d') : d'.read (dirs ++ [name]) = .ok content := by
  obtain ⟨place, hplace, hfile, rfl⟩ := write_eq_ok.mp h
  obtain ⟨-, -, there, hthere, -⟩ := locate_append_eq_ok.mp hplace
  have hagain := (locate_append_congr hthere (room_put d place content) name).trans hplace
  rw [read_eq hagain hfile, find?_put]
  rfl

/-- A file under another name is not changed by a write. -/
theorem read_write_of_ne {d d' : Directory} {dirs : FilePath} {name other : String}
    {content : Bytes} (h : d.write (dirs ++ [name]) content = .ok d') (hne : other ≠ name) :
    d'.read (dirs ++ [other]) = d.read (dirs ++ [other]) := by
  obtain ⟨place, hplace, hfile, rfl⟩ := write_eq_ok.mp h
  obtain ⟨-, -, there, hthere, rfl⟩ := locate_append_eq_ok.mp hplace
  unfold read
  rw [locate_append_congr hthere (room_put d _ content) other]
  cases hfound : d.locate (dirs ++ [other]) with
  | error f => rfl
  | ok place =>
    obtain ⟨-, -, there', hthere', rfl⟩ := locate_append_eq_ok.mp hfound
    have hsame : there' = there := Except.ok.inj ((hthere' d).symm.trans (hthere d))
    subst hsame
    have hplaces : there' ++ [other] ≠ there' ++ [name] := by simpa using hne
    rw [ok_bind, ok_bind, find?_put_of_ne hplaces]

end Directory

/-! ### Saved nets -/

/-- Paths with several suffixes differ in the last name only. -/
theorem FilePath.exists_withSuffix (p : FilePath) :
    ∃ dirs stem, ∀ suffix, p.withSuffix suffix = dirs ++ [stem ++ suffix] :=
  ⟨_, _, fun _ => rfl⟩

/-- A name without a point is its own stem. -/
theorem FilePath.stem_of_not_mem {name : String} (h : '.' ∉ name.toList) :
    FilePath.stem name = name := by
  have htail : name.toList.reverse.takeWhile (· != '.') = name.toList.reverse := by
    refine List.takeWhile_eq_self_iff.mpr fun c hc => ?_
    simp only [bne_iff_ne, ne_eq]
    rintro rfl
    exact h (List.mem_reverse.mp hc)
  unfold FilePath.stem
  dsimp only
  rw [htail, List.length_reverse, Nat.sub_self]
  exact if_pos (.inr (Nat.zero_le 1))

/-- Listing bytes from a place on puts them behind the ones already listed. -/
theorem loop_toList (bs : ByteArray) (k : Nat) (listed : List UInt8) :
    ByteArray.toList.loop bs k listed = listed.reverse ++ bs.data.toList.drop k := by
  fun_induction ByteArray.toList.loop bs k listed with
  | case1 k listed hk ih =>
    have hlt : k < bs.data.toList.length := hk
    have hbyte : bs.get! k = bs.data.toList[k] := getElem!_pos bs.data k hk
    rw [ih, List.reverse_cons, List.append_assoc, hbyte, List.drop_eq_getElem_cons hlt]
    rfl
  | case2 k listed hk =>
    have hle : bs.data.toList.length ≤ k := Nat.le_of_not_lt hk
    rw [List.drop_eq_nil_of_le hle, List.append_nil]

/-- A text is read back from its bytes. -/
theorem bytesText?_textBytes (s : String) : bytesText? (textBytes s) = some s := by
  have hbytes : (⟨(textBytes s).toArray⟩ : ByteArray) = s.toByteArray := by
    unfold textBytes ByteArray.toList
    rw [loop_toList]
    rfl
  unfold bytesText? String.fromUTF8?
  rw [hbytes, dif_pos s.isValidUTF8]
  rfl

section

variable [Arith F] [Interchange F]

omit [Arith F] in
/-- What a completed save did. -/
theorem save_completed {c : CompiledNet F} {s : Store F} {p : FilePath} {d : Directory}
    (h : (save c s p d).error = none) :
    ∃ j w d', NetDocument.ofNet c s = .ok (j, w) ∧ j.write.error = none ∧
      d.write (p.withSuffix documentSuffix) (textBytes j.write.state) = .ok d' ∧
      (w.arrays = 0 ∧ (save c s p d).state = d' ∨
        0 < w.arrays ∧ d'.write (p.withSuffix weightsSuffix) w.bytes
          = .ok (save c s p d).state) := by
  unfold save at h ⊢
  cases hnet : NetDocument.ofNet c s with
  | error e =>
    rw [hnet] at h
    cases h
  | ok made =>
    obtain ⟨j, w⟩ := made
    rw [hnet] at h
    dsimp only at h ⊢
    obtain ⟨hdocument, hweights⟩ := Outcome.andThen_completed.mp h
    rw [Outcome.andThen_state _ hdocument]
    unfold writeDocument at hdocument hweights ⊢
    obtain ⟨hfile, hwritten⟩ := Outcome.andThen_completed.mp hdocument
    rw [Outcome.andThen_state _ hfile] at hweights ⊢
    dsimp only at hwritten hweights ⊢
    unfold writeFile at hfile hweights ⊢
    refine ⟨j, w, _, rfl, hwritten, lift_eq_ok.mp (Outcome.attempt_completed.mp hfile), ?_⟩
    unfold writeWeights at hweights ⊢
    split
    · rename_i hnone
      exact .inl ⟨hnone, rfl⟩
    · rename_i hsome
      rw [if_neg hsome] at hweights
      exact .inr ⟨Nat.pos_of_ne_zero hsome, lift_eq_ok.mp (Outcome.attempt_completed.mp hweights)⟩

/-- The name can be that of a file. -/
def FileName (name : String) : Prop :=
  '\x00' ∉ name.toList ∧ name ≠ "" ∧ name.utf8ByteSize ≤ Directory.longestName

/-- In an empty directory there is room for names. -/
theorem Directory.lt_room_empty : longestName < empty.room := by decide

/-- Where there is room for names, a name in the working directory is not too long. -/
theorem Directory.fits_name {d : Directory} (hroom : longestName < d.room) {name : String}
    (hlength : name.utf8ByteSize ≤ longestName) : d.Fits ["", name] := by
  refine (fits_append : d.Fits ([""] ++ [name]) ↔ _).mpr ⟨?_, hlength⟩
  simp only [FilePath.textSize, List.singleton_append, List.foldl_cons, List.foldl_nil,
    List.length_cons, List.length_nil, String.utf8ByteSize_empty]
  omega

/-- Where there is room for names, the path of a file of a plain stem is not too long. -/
theorem Directory.fits_stem {d : Directory} (hroom : longestName < d.room) {stem suffix : String}
    (hlength : (FilePath.stem stem ++ suffix).utf8ByteSize ≤ longestName) :
    d.Fits (FilePath.withSuffix [stem] suffix) :=
  fits_name hroom hlength

/-- A name of the working directory leads to a place there. -/
theorem Directory.locate_name {d : Directory} (hroom : longestName < d.room) {name : String}
    (hname : FileName name) : d.locate ["", name] = .ok ["", name] := by
  obtain ⟨hnul, -, hlength⟩ := hname
  refine (locate_append_eq_ok : d.locate ([""] ++ [name]) = .ok ["", name] ↔ _).mpr
    ⟨fun n hn => ?_, fits_name hroom hlength, [""], fun _ => rfl, rfl⟩
  rcases List.mem_cons.mp hn with rfl | hn
  · simp
  · cases List.mem_singleton.mp hn
    exact hnul

/-- A file of the working directory is written at its name. -/
theorem Directory.write_name_eq {d : Directory} (hroom : longestName < d.room) {name : String}
    (hname : FileName name) (content : Bytes) :
    d.write ["", name] content = .ok (d.put ["", name] content) :=
  write_eq_ok.mpr ⟨_, locate_name hroom hname, by simp [isDirectory, FilePath.workingName], rfl⟩

/-- A write that completes, as a step. -/
theorem writeFile_of_ok {p : FilePath} {content : Bytes} {d d' : Directory}
    (h : d.write p content = .ok d') : writeFile p content d = .done d' := by
  unfold writeFile
  rw [h]
  rfl

omit [Arith F] in
/-- A net whose document can be written is saved under a plain name. -/
theorem save_name {c : CompiledNet F} {s : Store F} {stem : String} {d : Directory}
    (hroom : Directory.longestName < d.room) {j : Json F} {w : Weights}
    (hnet : NetDocument.ofNet c s = .ok (j, w)) (hwritten : j.write.error = none)
    (hdocument : FileName (FilePath.stem stem ++ documentSuffix))
    (hweights : 0 < w.arrays → FileName (FilePath.stem stem ++ weightsSuffix)) :
    (save c s [stem] d).error = none := by
  have hpath : ∀ suffix, FilePath.withSuffix [stem] suffix = ["", FilePath.stem stem ++ suffix] :=
    fun _ => rfl
  have hd' := Directory.write_name_eq hroom hdocument (textBytes j.write.state)
  have hfirst : writeDocument [stem] j d
      = .done (d.put ["", FilePath.stem stem ++ documentSuffix] (textBytes j.write.state)) := by
    unfold writeDocument
    dsimp only
    rw [hpath, writeFile_of_ok hd', hwritten]
    rfl
  unfold save
  rw [hnet]
  dsimp only
  rw [hfirst]
  refine Outcome.andThen_completed.mpr ⟨rfl, ?_⟩
  unfold writeWeights
  split
  · rfl
  · rename_i hsome
    have hroom' := (Directory.room_write hd').symm ▸ hroom
    have hd'' := Directory.write_name_eq hroom' (hweights (Nat.pos_of_ne_zero hsome)) w.bytes
    rw [hpath]
    exact congrArg Outcome.error (writeFile_of_ok hd'')

/-- Both files of a net lie in one place, and only the path of the document must not be too long. -/
theorem exists_files {p : FilePath} {d d' : Directory} {content : Bytes}
    (h : d.write (p.withSuffix documentSuffix) content = .ok d') :
    ∃ dirs stem there, (∀ suffix, p.withSuffix suffix = dirs ++ [stem ++ suffix]) ∧
      (∀ d : Directory, dirs.foldlM d.enter [] = .ok there) ∧
      ∀ n ∈ dirs ++ [stem ++ weightsSuffix], '\x00' ∉ n.toList := by
  obtain ⟨dirs, stem, hpath⟩ := p.exists_withSuffix
  rw [hpath] at h
  obtain ⟨place, hplace, -⟩ := Directory.write_eq_ok.mp h
  obtain ⟨hnul, -, there, hthere, -⟩ := Directory.locate_append_eq_ok.mp hplace
  refine ⟨dirs, stem, there, hpath, hthere, fun n hn => ?_⟩
  rcases List.mem_append.mp hn with hn | hn
  · exact hnul n (List.mem_append_left _ hn)
  · cases List.mem_singleton.mp hn
    have hstem := hnul _ (List.mem_append_right _ (List.mem_singleton_self _))
    simp [documentSuffix] at hstem
    simp [weightsSuffix, hstem]

omit [Arith F] in
/-- The document of a saved net is read back. -/
theorem readDocument_save {c : CompiledNet F} {s : Store F} {p : FilePath} {d d' : Directory}
    {j : Json F} {w : Weights} (hdoubles : j.Doubles) (hwritten : j.write.error = none)
    (hdocument : d.write (p.withSuffix documentSuffix) (textBytes j.write.state) = .ok d')
    (hweights : w.arrays = 0 ∧ (save c s p d).state = d' ∨
      0 < w.arrays ∧ d'.write (p.withSuffix weightsSuffix) w.bytes = .ok (save c s p d).state) :
    readDocument p (save c s p d).state = .ok j.merged := by
  obtain ⟨dirs, stem, hpath⟩ := p.exists_withSuffix
  have hne : stem ++ documentSuffix ≠ stem ++ weightsSuffix := by
    intro h
    have hlength := congrArg String.length h
    rw [String.length_append, String.length_append] at hlength
    exact absurd (Nat.add_left_cancel hlength) (by decide)
  have hbytes : (save c s p d).state.read (p.withSuffix documentSuffix)
      = .ok (textBytes j.write.state) := by
    rw [hpath] at hdocument hweights ⊢
    rcases hweights with ⟨-, hstate⟩ | ⟨-, hweights⟩
    · rw [hstate]
      exact Directory.read_write hdocument
    · rw [Directory.read_write_of_ne hweights hne]
      exact Directory.read_write hdocument
  unfold readDocument
  rw [hbytes, ok_bind, bytesText?_textBytes, Fallible.ofOption_some, ok_bind,
    Json.read?_write hdoubles hwritten]
  rfl

omit [Arith F] in
/-- A completed save does not change the room for paths. -/
theorem room_save {c : CompiledNet F} {s : Store F} {p : FilePath} {d : Directory}
    (h : (save c s p d).error = none) : (save c s p d).state.room = d.room := by
  obtain ⟨j, w, d', -, -, hdocument, hweights⟩ := save_completed h
  rw [← Directory.room_write hdocument]
  rcases hweights with ⟨-, hstate⟩ | ⟨-, hweights⟩
  · rw [hstate]
  · exact Directory.room_write hweights

section

variable {r : Registry} {c : CompiledNet F} {s : Store F} (hc : c.Lawful s)
  (hops : ∀ i ∈ c.forward ++ c.backward ++ c.test, r.find? i.op.name = some i.op)
  {p : FilePath} {d : Directory} (hsave : (save c s p d).error = none)
include hc hops hsave

/-- **A saved net is loaded again**, whatever files there were before: if saving completes, the
ops are registered under their names and the path of the weights is not too long, loading gives
the net back, on a store that holds the values of parameters only. -/
theorem load_save (hfits : d.Fits (p.withSuffix weightsSuffix)) :
    load r p (save c s p d).state
      = .ok (c.saved, s.restored (c.numVars.toNat / 2) c.paramVars) := by
  obtain ⟨j, w, d', hnet, hwritten, hdocument, hweights⟩ := save_completed hsave
  obtain ⟨hdoubles, hread⟩ := NetDocument.ofNet_restores hc hops hnet
  have htext := readDocument_save hdoubles hwritten hdocument hweights
  have hraw : ∃ raw, (save c s p d).state.read? (p.withSuffix weightsSuffix) = .ok raw ∧
      w.Within raw := by
    rcases hweights with ⟨hnone, -⟩ | ⟨-, hweights⟩
    · -- No weights were written; there may be an old file under their name, or none.
      obtain ⟨dirs, stem, there, hpath, hthere, hnul⟩ := exists_files hdocument
      rw [← Directory.fits_congr (room_save hsave), hpath] at hfits
      rw [hpath]
      have hlocate := Directory.locate_append_eq_ok.mpr ⟨hnul, hfits, there, hthere, rfl⟩
      have hfile : Directory.isDirectory (there ++ [stem ++ weightsSuffix]) = false := by
        have hne : stem ++ weightsSuffix ≠ "" := by simp [weightsSuffix]
        cases there <;> simp [Directory.isDirectory, FilePath.workingName, hne]
      refine ⟨(save c s p d).state.find? (there ++ [stem ++ weightsSuffix]), ?_,
        fun hpos => absurd hnone hpos.ne'⟩
      unfold Directory.read?
      rw [Directory.read_eq hlocate hfile]
      cases (save c s p d).state.find? (there ++ [stem ++ weightsSuffix]) <;> rfl
    · obtain ⟨dirs, stem, hpath⟩ := p.exists_withSuffix
      rw [hpath] at hweights ⊢
      refine ⟨some w.bytes, ?_, fun _ => ⟨_, rfl, List.prefix_refl _⟩⟩
      unfold Directory.read?
      rw [Directory.read_write hweights]
  obtain ⟨raw, hraw, hwithin⟩ := hraw
  unfold load
  rw [htext, hraw]
  simp only [liftM_eq_lift, Fallible.lift_ok, ok_bind]
  exact hread hwithin

/-- A net without arrays can be saved where it cannot be loaded from: the path of the weights,
which is longer than that of the document, is looked at even where there are none. -/
theorem load_save_of_not_fits (hfits : ¬d.Fits (p.withSuffix weightsSuffix)) :
    load (F := F) r p (save c s p d).state = .error (.fault .nameTooLong) := by
  obtain ⟨j, w, d', hnet, hwritten, hdocument, hweights⟩ := save_completed hsave
  obtain ⟨hdoubles, -⟩ := NetDocument.ofNet_restores hc hops hnet
  obtain ⟨dirs, stem, there, hpath, hthere, hnul⟩ := exists_files hdocument
  have hlocate : (save c s p d).state.locate (p.withSuffix weightsSuffix)
      = .error .nameTooLong := by
    rw [← Directory.fits_congr (room_save hsave), hpath] at hfits
    rw [hpath]
    exact Directory.locate_append_of_not_fits hnul (hthere _) hfits
  have hraw : (save c s p d).state.read? (p.withSuffix weightsSuffix) = .error .nameTooLong := by
    unfold Directory.read? Directory.read
    rw [hlocate]
    rfl
  unfold load
  rw [readDocument_save hdoubles hwritten hdocument hweights, hraw]
  rfl

end

end

end Saved
end SlotGrad
