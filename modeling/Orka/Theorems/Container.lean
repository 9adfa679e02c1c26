import Orka.Container

/-!
# Containers

Where unpacking a container writes, for every container: what its header lists and how much of it can be read says which names it comes
to, and the links of the file system say where these lead.
-/

namespace Orka

open Dynamic Json Paths

/-! ## The files unpacking creates -/

/-- The file is opened: it is created, or what it held is gone. -/
def Outcome.Opens : Outcome → Prop
  | .refused _ => False
  | _ => True

/-- The file is written as a whole. -/
def Outcome.Written : Outcome → Prop
  | .written _ => True
  | _ => False

/-- A loop comes to a name and opens the file it leads to: every name before it has been written. -/
def OpensName (outDir : FilePath) (steps : List (Text × (FilePath → Outcome))) (name : Text) : Prop :=
  ∃ pre outcome post, steps = pre ++ (name, outcome) :: post ∧ (∀ s ∈ pre, (s.2 (join posix outDir s.1)).Written) ∧
    (outcome (join posix outDir name)).Opens

variable {outDir : FilePath}

/-- The first step opens the name, or it goes through and a later one does. -/
theorem opensName_cons {name name' : Text} {outcome : FilePath → Outcome} {steps : List (Text × (FilePath → Outcome))} :
    OpensName outDir ((name', outcome) :: steps) name ↔
      (name = name' ∧ (outcome (join posix outDir name')).Opens) ∨
        ((outcome (join posix outDir name')).Written ∧ OpensName outDir steps name) := by
  constructor
  · rintro ⟨pre, outcome', post, hsplit, hpre, hopens⟩
    cases pre with
    | nil =>
      obtain ⟨h, -⟩ := List.cons.inj hsplit
      obtain ⟨rfl, rfl⟩ := Prod.mk.inj h
      exact .inl ⟨rfl, hopens⟩
    | cons s pre =>
      rw [List.cons_append, List.cons.injEq] at hsplit
      obtain ⟨rfl, rfl⟩ := hsplit
      obtain ⟨hs, hpre⟩ := List.forall_mem_cons.1 hpre
      exact .inr ⟨hs, pre, outcome', post, rfl, hpre, hopens⟩
  · rintro (⟨rfl, hopens⟩ | ⟨hwritten, pre, outcome', post, rfl, hpre, hopens⟩)
    · exact ⟨[], outcome, steps, rfl, List.forall_mem_nil _, hopens⟩
    · exact ⟨(name', outcome) :: pre, outcome', post, rfl, List.forall_mem_cons.2 ⟨hwritten, hpre⟩, hopens⟩

variable (outDir) in
/-- **The files of a loop** are those its names lead to, as far as it comes. -/
theorem exists_file_unpackNames (steps : List (Text × (FilePath → Outcome))) (path : FilePath) :
    (∃ file ∈ (unpackNames outDir steps).files, file.path = path) ↔
      ∃ name, OpensName outDir steps name ∧ join posix outDir name = path := by
  induction steps with
  | nil =>
    refine iff_of_false (fun ⟨_, h, _⟩ => nomatch h) ?_
    rintro ⟨name, ⟨pre, outcome, post, h, -⟩, -⟩
    simp at h
  | cons s steps ih =>
    obtain ⟨name', outcome⟩ := s
    simp only [opensName_cons, unpackNames]
    cases ho : outcome (join posix outDir name') with
    | refused e =>
      refine iff_of_false (fun ⟨_, h, _⟩ => nomatch h) ?_
      rintro ⟨name, ⟨-, h⟩ | ⟨h, -⟩, -⟩
      · exact h
      · exact h
    | broken contents e =>
      constructor
      · rintro ⟨file, hfile, rfl⟩
        obtain rfl := List.mem_singleton.1 hfile
        exact ⟨name', .inl ⟨rfl, trivial⟩, rfl⟩
      · rintro ⟨name, ⟨rfl, -⟩ | ⟨h, -⟩, rfl⟩
        · exact ⟨_, List.mem_singleton_self _, rfl⟩
        · exact h.elim
    | written contents =>
      simp only [List.exists_mem_cons_iff, ih]
      constructor
      · rintro (rfl | ⟨name, hname, hpath⟩)
        · exact ⟨name', .inl ⟨rfl, trivial⟩, rfl⟩
        · exact ⟨name, .inr ⟨trivial, hname⟩, hpath⟩
      · rintro ⟨name, ⟨rfl, -⟩ | ⟨-, hname⟩, hpath⟩
        · exact .inl hpath
        · exact .inr ⟨name, hname, hpath⟩

variable (outDir) in
/-- A loop that ends has written every name. -/
theorem unpackNames_eq_ok (steps : List (Text × (FilePath → Outcome))) :
    (∃ n, (unpackNames outDir steps).result = .ok n) ↔ ∀ s ∈ steps, (s.2 (join posix outDir s.1)).Written := by
  induction steps with
  | nil => exact iff_of_true ⟨0, rfl⟩ (List.forall_mem_nil _)
  | cons s steps ih =>
    obtain ⟨name, outcome⟩ := s
    rw [List.forall_mem_cons, ← ih, unpackNames]
    simp only
    cases outcome (join posix outDir name) with
    | refused e => exact iff_of_false (fun ⟨_, h⟩ => nomatch h) fun h => h.1
    | broken contents e => exact iff_of_false (fun ⟨_, h⟩ => nomatch h) fun h => h.1
    | written contents =>
      rw [and_iff_right (show (Outcome.written contents).Written from trivial)]
      simp only
      cases (unpackNames outDir steps).result with
      | error e => exact iff_of_false (fun ⟨_, h⟩ => nomatch h) (fun ⟨_, h⟩ => nomatch h)
      | ok n => exact iff_of_true ⟨_, rfl⟩ ⟨n, rfl⟩

/-- Unpacking opens the file a name leads to. -/
def OpensFile (host : ContainerHost) (container : List ℕ) (outDir : FilePath) (chunkBytes : ℤ) (name : Text) : Prop :=
  match startUnpack host container outDir with
  | .error _ => False
  | .ok (md, base, entries) =>
    OpensName outDir (entrySteps host container base chunkBytes entries) name ∨
      ((∀ s ∈ entrySteps host container base chunkBytes entries, (s.2 (join posix outDir s.1)).Written) ∧
        ∃ names, emptyFiles md = .ok names ∧ OpensName outDir (emptySteps host names) name)

/-- The files unpacking creates or overwrites are those of the names for which it opens one. -/
theorem exists_file_unpackContainer {host : ContainerHost} {container : List ℕ} {chunkBytes : ℤ} {path : FilePath} :
    (∃ file ∈ (unpackContainer host container outDir chunkBytes).files, file.path = path) ↔
      ∃ name, OpensFile host container outDir chunkBytes name ∧ join posix outDir name = path := by
  unfold unpackContainer OpensFile
  cases startUnpack host container outDir with
  | error e => exact iff_of_false (fun ⟨_, h, _⟩ => nomatch h) fun ⟨_, h, _⟩ => h
  | ok start =>
    obtain ⟨md, base, entries⟩ := start
    simp only
    have hdone := unpackNames_eq_ok outDir (entrySteps host container base chunkBytes entries)
    have hfiles := exists_file_unpackNames outDir (entrySteps host container base chunkBytes entries) path
    cases hfull : (unpackNames outDir (entrySteps host container base chunkBytes entries)).result with
    | error e =>
      have hnot : ¬ ∀ s ∈ entrySteps host container base chunkBytes entries, (s.2 (join posix outDir s.1)).Written :=
        fun h => by simpa [hfull] using hdone.2 h
      simp only [hfiles, hnot, false_and, or_false]
    | ok n =>
      have hall := hdone.1 ⟨n, hfull⟩
      simp only [and_iff_right hall]
      cases emptyFiles md with
      | error e => simp only [hfiles, reduceCtorEq, false_and, exists_false, or_false]
      | ok names =>
        have hempty := exists_file_unpackNames outDir (emptySteps host names) path
        simp only [Except.ok.injEq, exists_eq_left', List.mem_append, or_and_right, exists_or, hfiles, hempty]

/-! ## What a header lists -/

/-- So many bytes can be copied in chunks where `available` are left. -/
def CanCopy (chunkBytes remaining : ℤ) (available : ℕ) : Prop :=
  remaining = 0 ∨ 0 < remaining ∧ (0 < chunkBytes ∧ remaining ≤ available ∨ chunkBytes < 0 ∧ remaining = available)

/-- The copying of an entry ends well exactly when its bytes are there. -/
theorem copyChunks_eq_none {chunkBytes remaining : ℤ} {fuel : ℕ} {rest : List ℕ} (hfuel : rest.length < fuel) :
    (copyChunks chunkBytes fuel rest remaining).2 = none ↔ CanCopy chunkBytes remaining rest.length := by
  induction fuel generalizing rest remaining with
  | zero => omega
  | succ fuel ih =>
    rw [copyChunks]
    split
    · next hdone => exact iff_of_true rfl (.inl hdone)
    · next hmore =>
      simp only
      generalize hchunk : (if min chunkBytes remaining < 0 then rest else rest.take (min chunkBytes remaining).toNat) = chunk
      split
      · next hempty =>
        -- the end of the container, or a count of nothing
        refine iff_of_false nofun fun hcopy => ?_
        rw [hempty] at hchunk
        unfold CanCopy at hcopy
        split at hchunk
        · rw [hchunk, List.length_nil] at hcopy
          omega
        · rw [List.take_eq_nil_iff] at hchunk
          rcases hchunk with hchunk | rfl
          · omega
          · rw [List.length_nil] at hcopy
            omega
      · next hsome =>
        have hlength : chunk.length =
          if min chunkBytes remaining < 0 then rest.length else min (min chunkBytes remaining).toNat rest.length := by
          rw [← hchunk]
          split
          · rfl
          · exact List.length_take
        have hpos := List.length_pos_of_ne_nil hsome
        have hle : chunk.length ≤ rest.length := by
          rw [hlength]
          split <;> omega
        rw [ih (by rw [List.length_drop]; omega), List.length_drop]
        unfold CanCopy
        split at hlength <;> omega

/-- The specification of an entry, of which unpacking can open the file: its offsets are a pair, and the first leads into the file. -/
def Opens (base : ℕ) (spec : Json.Value) : Prop := ∃ b e n, beginEnd spec = .ok (b, e) ∧ asInt b = some n ∧ 0 ≤ base + n

/-- The bytes of the entry are there, as many as it says. -/
def EntryWhole (host : ContainerHost) (container : List ℕ) (base : ℕ) (chunkBytes : ℤ) (spec : Json.Value) : Prop :=
  ∃ b e n, beginEnd spec = .ok (b, e) ∧ asInt b = some n ∧ 0 ≤ base + n ∧ match asInt e with
    | some m => CanCopy chunkBytes (m - n) (container.drop (base + n).toNat).length
    | none => (host.readOther (container.drop (base + n).toNat) chunkBytes n e).2 = none

/-- A name that a header lists, whether a file is opened for it, and whether unpacking goes on behind it. -/
structure Listed where
  name : Text
  opens : Prop
  whole : Prop

/-- An entry of the header. -/
def entryListed (host : ContainerHost) (container : List ℕ) (base : ℕ) (chunkBytes : ℤ) (e : Text × Json.Value) : Listed :=
  ⟨e.1, Opens base e.2, EntryWhole host container base chunkBytes e.2⟩

/-- An element of the list of empty files: at one that is no string, unpacking fails. -/
def emptyListed : Json.Value → Listed
  | .str name => ⟨name, True, True⟩
  | _ => ⟨[], False, False⟩

/-- What the header of a container lists: its entries by their offsets, and behind them the names of its empty files. -/
def listing (host : ContainerHost) (container : List ℕ) (outDir : FilePath) (chunkBytes : ℤ) : List Listed :=
  match startUnpack host container outDir with
  | .error _ => []
  | .ok (md, base, entries) =>
    entries.map (entryListed host container base chunkBytes) ++
      match emptyFiles md with
      | .error _ => []
      | .ok names => names.map emptyListed

/-- The file system lets the file of a name be made. -/
def Lets (host : ContainerHost) (outDir : FilePath) (name : Text) : Prop :=
  host.makeDirs (join posix outDir name).dropLast = .ok () ∧ host.openFile (join posix outDir name) = .ok ()

/-- A name of a list that is come to: every name before it is whole, and a file is opened for it. -/
def ComesTo (host : ContainerHost) (outDir : FilePath) (listed : List Listed) (name : Text) : Prop :=
  ∃ pre x post, listed = pre ++ x :: post ∧ (∀ y ∈ pre, y.whole ∧ Lets host outDir y.name) ∧
    (x.opens ∧ Lets host outDir x.name) ∧ x.name = name

theorem comesTo_nil {host : ContainerHost} {name : Text} : ¬ ComesTo host outDir [] name := by
  rintro ⟨pre, x, post, h, -⟩
  simp at h

/-- The first entry is reached, or it is whole and a later one is. -/
theorem comesTo_cons {host : ContainerHost} {x : Listed} {listed : List Listed} {name : Text} :
    ComesTo host outDir (x :: listed) name ↔
      ((x.opens ∧ Lets host outDir x.name) ∧ x.name = name) ∨ ((x.whole ∧ Lets host outDir x.name) ∧ ComesTo host outDir listed name) := by
  constructor
  · rintro ⟨pre, y, post, hsplit, hpre, hy⟩
    cases pre with
    | nil =>
      obtain ⟨rfl, -⟩ := List.cons.inj hsplit
      exact .inl hy
    | cons z pre =>
      rw [List.cons_append, List.cons.injEq] at hsplit
      obtain ⟨rfl, rfl⟩ := hsplit
      obtain ⟨hz, hpre⟩ := List.forall_mem_cons.1 hpre
      exact .inr ⟨hz, pre, y, post, rfl, hpre, hy⟩
  · rintro (hx | ⟨hx, pre, y, post, rfl, hpre, hy⟩)
    · exact ⟨[], x, listed, rfl, List.forall_mem_nil _, hx⟩
    · exact ⟨x :: pre, y, post, rfl, List.forall_mem_cons.2 ⟨hx, hpre⟩, hy⟩

/-- The rest is reached exactly when everything before it is whole. -/
theorem comesTo_append {host : ContainerHost} {listed listed' : List Listed} {name : Text} :
    ComesTo host outDir (listed ++ listed') name ↔
      ComesTo host outDir listed name ∨ ((∀ x ∈ listed, x.whole ∧ Lets host outDir x.name) ∧ ComesTo host outDir listed' name) := by
  induction listed with
  | nil => simp [comesTo_nil]
  | cons x listed ih =>
    rw [List.cons_append, comesTo_cons, comesTo_cons, ih, List.forall_mem_cons]
    tauto

/-! ## What becomes of what is listed -/

section Outcomes

variable {host : ContainerHost} {container : List ℕ} {base : ℕ} {chunkBytes : ℤ} {name : Text} {spec : Json.Value}

/-- A whole entry opens. -/
theorem EntryWhole.opens (h : EntryWhole host container base chunkBytes spec) : Opens base spec := by
  obtain ⟨b, e, n, hspec, hb, hpos, -⟩ := h
  exact ⟨b, e, n, hspec, hb, hpos⟩

/-- An entry whose offsets cannot be read, or whose file cannot be made, is refused. -/
theorem entryOutcome_refused (container : List ℕ) (chunkBytes : ℤ) (h : ¬ (Opens base spec ∧ Lets host outDir name)) :
    ∃ e, entryOutcome host container base chunkBytes (join posix outDir name) spec = .refused e := by
  unfold entryOutcome
  cases hspec : beginEnd spec with
  | error e => exact ⟨e, rfl⟩
  | ok offsets =>
    obtain ⟨b, e⟩ := offsets
    simp only
    cases hdirs : host.makeDirs (join posix outDir name).dropLast with
    | error e => exact ⟨e, rfl⟩
    | ok made =>
      cases hb : asInt b with
      | none => exact ⟨_, rfl⟩
      | some n =>
        simp only
        split
        · exact ⟨_, rfl⟩
        · next hpos =>
          cases hopen : host.openFile (join posix outDir name) with
          | error e => exact ⟨e, rfl⟩
          | ok opened => exact absurd ⟨⟨b, e, n, hspec, hb, not_lt.1 hpos⟩, hdirs, hopen⟩ h

/-- Otherwise its file holds the bytes that are there, and it is whole or broken. -/
theorem entryOutcome_opened (container : List ℕ) (chunkBytes : ℤ) {b e : Json.Value} {n : ℤ} (hspec : beginEnd spec = .ok (b, e))
    (hb : asInt b = some n) (hpos : 0 ≤ base + n) (hlets : Lets host outDir name) :
    ∃ copied, entryOutcome host container base chunkBytes (join posix outDir name) spec =
      match (match asInt e with
        | some m => (copyChunks chunkBytes ((container.drop (base + n).toNat).length + 1) (container.drop (base + n).toNat) (m - n)).2
        | none => (host.readOther (container.drop (base + n).toNat) chunkBytes n e).2) with
      | some err => .broken copied err
      | none => .written copied := by
  unfold entryOutcome
  rw [hspec]
  simp only
  rw [hlets.1, hb]
  simp only
  rw [if_neg (not_lt.2 hpos), hlets.2]
  simp only
  cases asInt e with
  | none => exact ⟨_, rfl⟩
  | some m => exact ⟨_, rfl⟩

/-- The file of an entry is opened exactly when its offsets can be read and the file system lets it be made. -/
theorem opens_entryOutcome : (entryOutcome host container base chunkBytes (join posix outDir name) spec).Opens ↔
    Opens base spec ∧ Lets host outDir name := by
  by_cases h : Opens base spec ∧ Lets host outDir name
  · refine iff_of_true ?_ h
    obtain ⟨⟨b, e, n, hspec, hb, hpos⟩, hlets⟩ := h
    obtain ⟨copied, houtcome⟩ := entryOutcome_opened container chunkBytes hspec hb hpos hlets
    rw [houtcome]
    split <;> trivial
  · obtain ⟨e, houtcome⟩ := entryOutcome_refused container chunkBytes h
    rw [houtcome]
    exact iff_of_false id h

/-- It is written as a whole exactly when its bytes are there. -/
theorem written_entryOutcome : (entryOutcome host container base chunkBytes (join posix outDir name) spec).Written ↔
    EntryWhole host container base chunkBytes spec ∧ Lets host outDir name := by
  by_cases h : Opens base spec ∧ Lets host outDir name
  · obtain ⟨⟨b, e, n, hspec, hb, hpos⟩, hlets⟩ := h
    obtain ⟨copied, houtcome⟩ := entryOutcome_opened container chunkBytes hspec hb hpos hlets
    have hwhole : EntryWhole host container base chunkBytes spec ↔ (match asInt e with
        | some m => (copyChunks chunkBytes ((container.drop (base + n).toNat).length + 1) (container.drop (base + n).toNat) (m - n)).2
        | none => (host.readOther (container.drop (base + n).toNat) chunkBytes n e).2) = none := by
      unfold EntryWhole
      rw [hspec]
      simp only [Except.ok.injEq, Prod.mk.injEq, exists_and_left, exists_eq_left', hb, Option.some.injEq, hpos, true_and, and_assoc]
      cases asInt e with
      | none => rfl
      | some m => exact (copyChunks_eq_none (Nat.lt_succ_self _)).symm
    rw [houtcome, hwhole, and_iff_left hlets]
    split
    · next err herr =>
      rw [herr]
      exact iff_of_false id nofun
    · next hnone => exact iff_of_true trivial hnone
  · obtain ⟨e, houtcome⟩ := entryOutcome_refused container chunkBytes h
    rw [houtcome]
    exact iff_of_false id fun hwhole => h ⟨hwhole.1.opens, hwhole.2⟩

/-- An empty file is written exactly where the name is let through. -/
theorem written_emptyOutcome : (emptyOutcome host (join posix outDir name)).Written ↔ Lets host outDir name := by
  unfold emptyOutcome Lets
  cases host.makeDirs (join posix outDir name).dropLast with
  | error e => exact iff_of_false id fun h => nomatch h.1
  | ok made =>
    cases host.openFile (join posix outDir name) with
    | error e => exact iff_of_false id fun h => nomatch h.2
    | ok opened => exact iff_of_true trivial ⟨rfl, rfl⟩

/-- An empty file opens exactly where the name is let through. -/
theorem opens_emptyOutcome : (emptyOutcome host (join posix outDir name)).Opens ↔ Lets host outDir name := by
  rw [← written_emptyOutcome]
  unfold emptyOutcome
  cases host.makeDirs (join posix outDir name).dropLast with
  | error e => rfl
  | ok made =>
    cases host.openFile (join posix outDir name) with
    | error e => rfl
    | ok opened => rfl

end Outcomes

/-- A loop opens the file of a name exactly when it is come to in the list that says of each step what becomes of it. -/
theorem opensName_iff {ι : Type} {host : ContainerHost} {steps : ι → Text × (FilePath → Outcome)} {listed : ι → Listed} {name : Text}
    (hname : ∀ i, (steps i).1 = (listed i).name)
    (hopens : ∀ i, ((steps i).2 (join posix outDir (steps i).1)).Opens ↔ (listed i).opens ∧ Lets host outDir (listed i).name)
    (hwhole : ∀ i, ((steps i).2 (join posix outDir (steps i).1)).Written ↔ (listed i).whole ∧ Lets host outDir (listed i).name)
    (is : List ι) : OpensName outDir (is.map steps) name ↔ ComesTo host outDir (is.map listed) name := by
  induction is with
  | nil =>
    refine iff_of_false ?_ comesTo_nil
    rintro ⟨pre, outcome, post, h, -⟩
    simp at h
  | cons i is ih =>
    have hcons : OpensName outDir ((i :: is).map steps) name ↔ (name = (steps i).1 ∧ ((steps i).2 (join posix outDir (steps i).1)).Opens) ∨
        (((steps i).2 (join posix outDir (steps i).1)).Written ∧ OpensName outDir (is.map steps) name) := opensName_cons
    rw [hcons, List.map_cons, comesTo_cons, hopens, hwhole, ih, hname, and_comm, eq_comm]

/-- **Unpacking opens the file of a name** exactly when the name is come to in what the header lists. -/
theorem opensFile_iff {host : ContainerHost} {container : List ℕ} {chunkBytes : ℤ} {name : Text} :
    OpensFile host container outDir chunkBytes name ↔ ComesTo host outDir (listing host container outDir chunkBytes) name := by
  unfold OpensFile listing
  cases startUnpack host container outDir with
  | error e => exact iff_of_false id comesTo_nil
  | ok start =>
    obtain ⟨md, base, entries⟩ := start
    have hentries : OpensName outDir (entrySteps host container base chunkBytes entries) name ↔
        ComesTo host outDir (entries.map (entryListed host container base chunkBytes)) name :=
      opensName_iff (fun _ => rfl) (fun _ => opens_entryOutcome) (fun _ => written_entryOutcome) entries
    have hall : (∀ s ∈ entrySteps host container base chunkBytes entries, (s.2 (join posix outDir s.1)).Written) ↔
        ∀ x ∈ entries.map (entryListed host container base chunkBytes), x.whole ∧ Lets host outDir x.name := by
      rw [entrySteps, List.forall_mem_map, List.forall_mem_map]
      exact forall₂_congr fun _ _ => written_entryOutcome
    simp only
    rw [comesTo_append, hall]
    refine or_congr hentries (and_congr_right fun _ => ?_)
    cases emptyFiles md with
    | error e => exact iff_of_false (fun ⟨_, h, _⟩ => nomatch h) comesTo_nil
    | ok names =>
      simp only [Except.ok.injEq, exists_eq_left']
      refine opensName_iff (fun v => ?_) (fun v => ?_) (fun v => ?_) names
      · cases v <;> rfl
      · cases v with
        | str name => exact opens_emptyOutcome.trans (iff_of_eq (true_and _)).symm
        | _ => exact iff_of_false id fun h => h.1
      · cases v with
        | str name => exact written_emptyOutcome.trans (iff_of_eq (true_and _)).symm
        | _ => exact iff_of_false id fun h => h.1

variable (host : ContainerHost) (container : List ℕ) (outDir : FilePath) (chunkBytes : ℤ) (links : Links ℕ)

/-- **Unpacking writes inside the output directory** if and only if every name it comes to, of those its header lists, leads into the
place of that directory, with the links that are there. -/
theorem unpackContainer_inside_iff :
    (∀ file ∈ (unpackContainer host container outDir chunkBytes).files, Inside posix links outDir file.path) ↔
      ∀ name, ComesTo host outDir (listing host container outDir chunkBytes) name →
        LeadsInto posix links (resolve posix links outDir) name := by
  constructor
  · intro h name hname
    obtain ⟨file, hfile, hpath⟩ := exists_file_unpackContainer.2 ⟨name, opensFile_iff.2 hname, rfl⟩
    exact inside_join_iff.1 (hpath ▸ h file hfile)
  · intro h file hfile
    obtain ⟨name, hname, hpath⟩ := exists_file_unpackContainer.1 ⟨file, hfile, rfl⟩
    exact hpath ▸ inside_join_iff.2 (h name (opensFile_iff.1 hname))

/-- A host that decodes a header as it stands and lets everything be made and opened. -/
def openHost : ContainerHost where
  decode b := .ok b
  sortOther entries := .ok entries
  readOther _ _ _ _ := ([], none)
  makeDirs _ := .ok ()
  openFile _ := .ok ()

/-- A container whose entry goes up from the output directory and whose empty file lies at the root. -/
def strayContainer : List ℕ :=
  let header := dumps compact (.obj
    [(text "../evil", .obj [(text "dtype", .str (text "U8")), (text "shape", .arr [.int 1]),
      (text "data_offsets", .arr [.int 0, .int 1])]),
     (text "__metadata__", .obj [(text "orka_container", .str (text "1")),
      (text "empty_files", .str (dumps spaced (.arr [.str (text "/etc/evil")])))])])
  packU64 header.length ++ header ++ [7]

/-- No links. -/
def noLinks : Links ℕ := fun _ => none

/-- Unpacking it into `/tmp/out` writes `/tmp/evil` and `/etc/evil`. -/
theorem strayContainer_outside :
    (unpackContainer openHost strayContainer [text "tmp", text "out"] 8).files.map (fun file => resolve posix noLinks file.path) =
      [[text "tmp", text "evil"], [text "etc", text "evil"]] ∧
    ¬ ∀ file ∈ (unpackContainer openHost strayContainer [text "tmp", text "out"] 8).files,
      Inside posix noLinks [text "tmp", text "out"] file.path := by
  decide +kernel

end Orka
