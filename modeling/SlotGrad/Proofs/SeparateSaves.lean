import SlotGrad.Proofs.LoadedNets

/-!
# Nets saved under several stems

A stem names two files, and saving under it writes these two and no other.  So nets that are
saved under different stems in one directory would not touch each other, if different stems
named different files.  They do not always: the name of a file is made from the stem without its
last suffix, and stems that differ in the last suffix only name the same two files.

## Main results

* `FilePath.stem_point` — what follows the last point of a stem is not part of the names of its
  files.
* `Saved.read_save_of_ne` — saving leaves all files alone but the two of the stem.
* `Saved.saved_nets_apart` — nets under stems that name different files are both there, and of
  two nets under stems that name the same files only the later one is.
* `later_version_overwrites` — two versions of a net under one name are one net.
-/

namespace SlotGrad
namespace Saved

/-! ### Names of files -/

namespace FilePath

/-- A path to a name with another suffix changes in the name only. -/
theorem withSuffix_append (dirs : FilePath) (name suffix : String) :
    withSuffix (dirs ++ [name]) suffix = workingName :: dirs ++ [stem name ++ suffix] := by
  unfold withSuffix
  dsimp only
  rw [← List.cons_append, List.dropLast_concat, List.getLast?_concat]
  rfl

/-- **What follows the last point of a name is dropped**, unless the point is the first or the last
character. -/
theorem stem_point {first last : List Char} (hfirst : first ≠ []) (hlast : last ≠ [])
    (hpoint : '.' ∉ last) :
    stem (String.ofList (first ++ '.' :: last)) = String.ofList first := by
  have htail : (first ++ '.' :: last).reverse.takeWhile (· != '.') = last.reverse := by
    have hreverse : (first ++ '.' :: last).reverse = last.reverse ++ '.' :: first.reverse := by simp
    rw [hreverse, List.takeWhile_append_of_pos fun c hc => ?_, List.takeWhile_cons_of_neg (by simp),
      List.append_nil]
    rw [bne_iff_ne]
    rintro rfl
    exact hpoint (List.mem_reverse.mp hc)
  have hcount : (first ++ '.' :: last).length - last.reverse.length = first.length + 1 := by
    simp only [List.length_append, List.length_cons, List.length_reverse]
    omega
  have hpos : 0 < first.length := List.length_pos_iff.mpr hfirst
  have hnot : ¬(last.reverse.isEmpty = true ∨ first.length + 1 ≤ 1) := by
    rintro (h | h)
    · exact hlast (List.reverse_eq_nil_iff.mp (List.isEmpty_iff.mp h))
    · omega
  unfold stem
  dsimp only
  rw [String.toList_ofList, htail, hcount, if_neg hnot, Nat.add_sub_cancel, List.take_left]

end FilePath

/-- The document of a stem is not the weights of any. -/
theorem document_ne_weights (stem other : String) :
    stem ++ documentSuffix ≠ other ++ weightsSuffix := by
  intro h
  have hlast := congrArg (fun s : String => s.toList.getLast?) h
  simp only [String.toList_append] at hlast
  rw [List.getLast?_append_of_ne_nil _ (by decide), List.getLast?_append_of_ne_nil _ (by decide)]
    at hlast
  exact absurd hlast (by decide)

/-! ### What saving touches -/

section

variable {F : Type} [Interchange F]

omit [Interchange F] in
/-- Writing a file, whether it is refused or not, leaves a file under another name alone. -/
theorem read_writeFile_of_ne {dirs : FilePath} {name other : String} (hne : other ≠ name)
    (content : Bytes) (d : Directory) :
    (writeFile (dirs ++ [name]) content d).state.read (dirs ++ [other])
      = d.read (dirs ++ [other]) :=
  Outcome.attempt_state
    (P := fun d' : Directory => d'.read (dirs ++ [other]) = d.read (dirs ++ [other]))
    rfl fun _ h => Directory.read_write_of_ne (lift_eq_ok.mp h) hne

/-- **Saving leaves all files alone but the two of its stem**, whether it completes or not. -/
theorem read_save_of_ne {dirs : FilePath} {stem other : String} {p : FilePath}
    (hpath : ∀ suffix, p.withSuffix suffix = dirs ++ [stem ++ suffix])
    (hdocument : other ≠ stem ++ documentSuffix) (hweights : other ≠ stem ++ weightsSuffix)
    (c : CompiledNet F) (s : Store F) (d : Directory) :
    (save c s p d).state.read (dirs ++ [other]) = d.read (dirs ++ [other]) := by
  unfold save
  cases NetDocument.ofNet c s with
  | error e => rfl
  | ok made =>
    obtain ⟨j, w⟩ := made
    dsimp only
    have hfirst : ∀ d : Directory,
        (writeDocument p j d).state.read (dirs ++ [other]) = d.read (dirs ++ [other]) := by
      intro d
      unfold writeDocument
      rw [hpath]
      exact Outcome.andThen_keeps
        (P := fun d' : Directory => d'.read (dirs ++ [other]) = d.read (dirs ++ [other]))
        (read_writeFile_of_ne hdocument _ d) fun _ h => h
    refine Outcome.andThen_keeps
      (P := fun d' : Directory => d'.read (dirs ++ [other]) = d.read (dirs ++ [other]))
      (hfirst d) fun d' hd' => ?_
    unfold writeWeights
    split
    · exact hd'
    · rw [hpath, read_writeFile_of_ne hweights, hd']

/-- Loading looks at the two files of the stem only. -/
theorem load_congr [Arith F] {r : Registry} {p p' : FilePath} {d d' : Directory}
    (hdocument : d'.read (p'.withSuffix documentSuffix) = d.read (p.withSuffix documentSuffix))
    (hweights : d'.read (p'.withSuffix weightsSuffix) = d.read (p.withSuffix weightsSuffix)) :
    load (F := F) r p' d' = load r p d := by
  unfold load readDocument Directory.read?
  rw [hdocument, hweights]

/-- A net without arrays is saved by writing its document. -/
theorem save_without_arrays {c : CompiledNet F} {s : Store F} {p : FilePath} {d d' : Directory}
    {j : Json F} {w : Weights} (hnet : NetDocument.ofNet c s = .ok (j, w))
    (hwritten : j.write.error = none) (hnone : w.arrays = 0)
    (hdocument : d.write (p.withSuffix documentSuffix) (textBytes j.write.state) = .ok d') :
    save c s p d = .done d' := by
  unfold save
  rw [hnet]
  unfold writeDocument writeWeights
  dsimp only
  rw [writeFile_of_ok hdocument, Outcome.done_andThen, hwritten]
  exact if_pos hnone

/-- A saved net's document is a file. -/
theorem exists_read_document {c : CompiledNet F} {s : Store F} {p : FilePath} {d : Directory}
    (h : (save c s p d).error = none) :
    ∃ text, (save c s p d).state.read (p.withSuffix documentSuffix) = .ok text := by
  obtain ⟨j, w, d', -, -, hdocument, hweights⟩ := save_completed h
  obtain ⟨dirs, stem, hpath⟩ := p.exists_withSuffix
  rw [hpath] at hdocument hweights ⊢
  rcases hweights with ⟨-, hstate⟩ | ⟨-, hweights⟩
  · rw [hstate]
    exact ⟨_, Directory.read_write hdocument⟩
  · rw [Directory.read_write_of_ne hweights (document_ne_weights stem stem)]
    exact ⟨_, Directory.read_write hdocument⟩

/-! ### Two saved nets -/

/-- **Nets under stems that name different files do not interfere; nets under stems that name
the same files are one.**  Two nets are saved in a directory, one after the other.  If the names
of their files differ, then both documents are there, each with the text that was written for
its net, and the first stem gives the first net back.  If they do not, the first stem gives the
second net. -/
theorem saved_nets_apart [Arith F] {r : Registry} {c₁ c₂ : CompiledNet F} {s₁ s₂ : Store F}
    (hc₁ : c₁.Lawful s₁) (hc₂ : c₂.Lawful s₂)
    (hops₁ : ∀ i ∈ c₁.forward ++ c₁.backward ++ c₁.test, r.find? i.op.name = some i.op)
    (hops₂ : ∀ i ∈ c₂.forward ++ c₂.backward ++ c₂.test, r.find? i.op.name = some i.op)
    {dirs : FilePath} {m n : String} {d d₁ d₂ : Directory}
    (hfits : d.Fits ((dirs ++ [m] : FilePath).withSuffix weightsSuffix))
    (hfirst : save c₁ s₁ (dirs ++ [m]) d = .done d₁)
    (hsecond : save c₂ s₂ (dirs ++ [n]) d₁ = .done d₂) :
    (FilePath.stem m ≠ FilePath.stem n →
      load r (dirs ++ [m]) d₂
          = .ok (c₁.saved, s₁.restored (c₁.numVars.toNat / 2) c₁.paramVars) ∧
        (dirs ++ [m] : FilePath).withSuffix documentSuffix
          ≠ (dirs ++ [n] : FilePath).withSuffix documentSuffix ∧
        ∃ text₁ text₂, d₁.read ((dirs ++ [m] : FilePath).withSuffix documentSuffix) = .ok text₁ ∧
          d₂.read ((dirs ++ [m] : FilePath).withSuffix documentSuffix) = .ok text₁ ∧
          d₂.read ((dirs ++ [n] : FilePath).withSuffix documentSuffix) = .ok text₂) ∧
    (FilePath.stem m = FilePath.stem n →
      load r (dirs ++ [m]) d₂
        = .ok (c₂.saved, s₂.restored (c₂.numVars.toNat / 2) c₂.paramVars)) := by
  have hstate₁ : (save c₁ s₁ (dirs ++ [m]) d).state = d₁ := congrArg Outcome.state hfirst
  have hstate₂ : (save c₂ s₂ (dirs ++ [n]) d₁).state = d₂ := congrArg Outcome.state hsecond
  have herror₁ : (save c₁ s₁ (dirs ++ [m]) d).error = none := congrArg Outcome.error hfirst
  have herror₂ : (save c₂ s₂ (dirs ++ [n]) d₁).error = none := congrArg Outcome.error hsecond
  constructor
  · intro hne
    have hkept : ∀ suffix, FilePath.stem m ++ suffix ≠ FilePath.stem n ++ documentSuffix →
        FilePath.stem m ++ suffix ≠ FilePath.stem n ++ weightsSuffix →
        d₂.read ((dirs ++ [m] : FilePath).withSuffix suffix)
          = d₁.read ((dirs ++ [m] : FilePath).withSuffix suffix) := by
      intro suffix hdocument hweights
      rw [← hstate₂, FilePath.withSuffix_append]
      exact read_save_of_ne (FilePath.withSuffix_append dirs n) hdocument hweights c₂ s₂ d₁
    -- The second save writes neither file of the first stem.
    have hapart : ∀ suffix, FilePath.stem m ++ suffix ≠ FilePath.stem n ++ suffix :=
      fun suffix h => hne (String.append_left_inj suffix |>.mp h)
    have hdocument := hkept documentSuffix (hapart _) (document_ne_weights _ _)
    have hweights := hkept weightsSuffix (document_ne_weights _ _).symm (hapart _)
    obtain ⟨text₁, htext₁⟩ := exists_read_document herror₁
    obtain ⟨text₂, htext₂⟩ := exists_read_document herror₂
    rw [hstate₁] at htext₁
    rw [hstate₂] at htext₂
    refine ⟨?_, ?_, text₁, text₂, htext₁, hdocument.trans htext₁, htext₂⟩
    · rw [load_congr hdocument hweights, ← hstate₁]
      exact load_save hc₁ hops₁ herror₁ hfits
    · rw [FilePath.withSuffix_append, FilePath.withSuffix_append]
      intro h
      exact hapart _ (List.singleton_inj.mp (List.append_cancel_left h))
  · intro heq
    -- The stems name the same files, so the first stem reads what the second save left.
    have hsame : ∀ suffix, (dirs ++ [m] : FilePath).withSuffix suffix
        = (dirs ++ [n] : FilePath).withSuffix suffix := by
      intro suffix
      rw [FilePath.withSuffix_append, FilePath.withSuffix_append, heq]
    rw [load_congr (congrArg d₂.read (hsame documentSuffix))
      (congrArg d₂.read (hsame weightsSuffix)), ← hstate₂]
    have hroom : d₁.room = d.room := hstate₁ ▸ room_save herror₁
    exact load_save hc₂ hops₂ herror₂
      (hsame weightsSuffix ▸ (Directory.fits_congr hroom _).mpr hfits)

end

/-! ### Nets of one parameter -/

section

/-- A parameter alone. -/
def loneParameter (x : ℚ) : List (Node ℚ) :=
  [⟨0, { bareLabel with name := some "w" }, .param ⟨.real x, .integer 0, .integer 1, .gradient⟩⟩]

/-- The net of a parameter alone. -/
def loneNet : CompiledNet ℚ where
  forward := []
  backward := []
  test := []
  inputs := []
  params := [⟨0, "w", .integer 0, .integer 1, "", "gradient"⟩]
  diagnostics := [⟨0, 1, "w"⟩]
  numVars := 2
  «meta» := .none
  names := ["w"]
  nodes := [some ⟨0, .param, "Param(w)"⟩]

/-- The store of a parameter alone. -/
def loneStore (x : ℚ) : Store ℚ := ⟨#[.real x, .none], by simp⟩

theorem compile_loneParameter (x : ℚ) :
    compileNodes [] (fun _ => true) (loneParameter x) none plainOptions
      = .ok ⟨loneNet, loneStore x, []⟩ := rfl

theorem lawful_loneNet {x : ℚ} (hx : IsDouble x) : loneNet.Lawful (loneStore x) := by
  refine ⟨by decide, by decide, by decide, ?_, ?_, .none, fun i hi => ?_⟩
  · refine List.forall_mem_singleton.mpr fun v hv => ?_
    cases hv
    exact .real hx
  · exact List.forall_mem_singleton.mpr ⟨.integer 0, .integer 1⟩
  · cases hi

/-- The net is saved in one file. -/
theorem exists_save_loneNet (x : ℚ) (name : String)
    (hname : FileName (FilePath.stem name ++ documentSuffix)) :
    ∃ content, ∀ d : Directory, Directory.longestName < d.room →
      save loneNet (loneStore x) [name] d
        = .done (d.put ["", FilePath.stem name ++ documentSuffix] content) := by
  cases hnet : NetDocument.ofNet loneNet (loneStore x) with
  | error e => cases hnet
  | ok made =>
    obtain ⟨j, w⟩ := made
    refine ⟨textBytes j.write.state, fun d hroom => save_without_arrays hnet ?_ ?_ ?_⟩
    · cases hnet
      rfl
    · cases hnet
      rfl
    · exact Directory.write_name_eq hroom hname _

theorem saved_nets_apart_lone_parameters :
    ∃ d₁ d₂, save loneNet (loneStore 3) ["first.1"] .empty = .done d₁ ∧
      save loneNet (loneStore 4) ["second.1"] d₁ = .done d₂ ∧
      FilePath.stem "first.1" ≠ FilePath.stem "second.1" ∧
      load Registry.builtin ["first.1"] d₂
        = .ok (loneNet.saved,
            (loneStore 3).restored (loneNet.numVars.toNat / 2) loneNet.paramVars) := by
  obtain ⟨content, hsave⟩ := exists_save_loneNet 3 "first.1"
    (by unfold FileName; decide)
  obtain ⟨content', hsave'⟩ := exists_save_loneNet 4 "second.1"
    (by unfold FileName; decide)
  have hthree : IsDouble (3 : ℚ) := (isDouble_and_isSingle 3 (by simp)).1
  have hfour : IsDouble (4 : ℚ) := (isDouble_and_isSingle 4 (by simp)).1
  have hne : FilePath.stem "first.1" ≠ FilePath.stem "second.1" := by decide
  have hops : ∀ i ∈ loneNet.forward ++ loneNet.backward ++ loneNet.test,
      Registry.builtin.find? i.op.name = some i.op := fun i hi => by cases hi
  have hfirst : save loneNet (loneStore 3) ([] ++ ["first.1"]) .empty = .done _ :=
    hsave _ Directory.lt_room_empty
  have hsecond :=
    hsave' (Directory.empty.put ["", FilePath.stem "first.1" ++ documentSuffix] content)
    Directory.lt_room_empty
  have hfits : Directory.empty.Fits (FilePath.withSuffix ["first.1"] weightsSuffix) :=
    Directory.fits_stem Directory.lt_room_empty (by decide)
  exact ⟨_, _, hfirst, hsecond, hne, ((saved_nets_apart (lawful_loneNet hthree)
    (lawful_loneNet hfour) hops hops hfits hfirst hsecond).1 hne).1⟩

/-- **A later version overwrites an earlier one.**  A net is saved under one stem, and another net
under a stem that differs in what follows the point: there is one file, and the first stem gives the
second net's parameter. -/
theorem later_version_overwrites :
    ∃ first second, compileNodes [] (fun _ => true) (loneParameter 3) none plainOptions
      = .ok first ∧
      compileNodes [] (fun _ => true) (loneParameter 4) none plainOptions = .ok second ∧
      ∃ d₁ d₂, save first.net first.store ["m.1"] .empty = .done d₁ ∧
        save second.net second.store ["m.2"] d₁ = .done d₂ ∧
        d₂.files.map Prod.fst = [["", "m.json"]] ∧
        ∃ (c : CompiledNet ℚ) (t : Store ℚ), load Registry.builtin ["m.1"] d₂ = .ok (c, t) ∧
          first.store.content 0 = .real 3 ∧ t.content 0 = .real 4 := by
  obtain ⟨content, hsave⟩ := exists_save_loneNet 3 "m.1"
    (by unfold FileName; decide)
  obtain ⟨content', hsave'⟩ := exists_save_loneNet 4 "m.2"
    (by unfold FileName; decide)
  have hfour : IsDouble (4 : ℚ) := (isDouble_and_isSingle 4 (by simp)).1
  have hstem : FilePath.stem "m.1" = "m" ∧ FilePath.stem "m.2" = "m" := by decide
  have hsame : ∀ suffix, FilePath.withSuffix ["m.1"] suffix
      = FilePath.withSuffix ["m.2"] suffix := by
    intro suffix
    change ["", FilePath.stem "m.1" ++ suffix] = ["", FilePath.stem "m.2" ++ suffix]
    rw [hstem.1, hstem.2]
  rw [hstem.1] at hsave
  rw [hstem.2] at hsave'
  have hfirst := hsave .empty Directory.lt_room_empty
  have hsecond := hsave' (Directory.empty.put ["", "m" ++ documentSuffix] content)
    Directory.lt_room_empty
  have hload := load_save (r := Registry.builtin) (lawful_loneNet hfour) (fun i hi => by cases hi)
    (congrArg Outcome.error hsecond) (Directory.fits_stem Directory.lt_room_empty (by decide))
  rw [hsecond, ← load_congr (congrArg _ (hsame documentSuffix)) (congrArg _ (hsame weightsSuffix))]
    at hload
  exact ⟨_, _, compile_loneParameter 3, compile_loneParameter 4, _, _, hfirst, hsecond, rfl, _, _,
    hload, rfl, rfl⟩

end

end Saved
end SlotGrad
