import Fileloft.Fs.Chunks

/-!
# Finalizing again after a failure

`finalize` joins all parts and then removes them one by one. When it fails
before the first removal, a second call finds the same parts. When it fails
between two removals, the second call joins what is left.
-/

namespace Fileloft.FileStore

/-- `finalize`, each file operation with its fate. The refused ones answer
`error`. -/
def finalizeFated (s : FileStore) (id : UploadId) (order : Listing) (fates : ℕ → Fate)
    (error : IoError) (d : Disk) :
    Option (Except TusError Unit) × Disk :=
  (s.finalize id).runFated (Disk.interp order) (fun _ => .error error) fates d

/-- The removal of part `n` of `count` is performed. It follows the existence
check, the listing, the creation of the directory, the opening of the data
file, the opening and the copy of each part, the flush, and the removals
before it. -/
def Removes (fates : ℕ → Fate) (count n : ℕ) : Prop := ∀ i ≤ 5 + 2 * count + n, fates i = .perform

/-- The upload has exactly these parts. -/
structure HoldsParts (s : FileStore) (id : UploadId) (parts : List Bytes) (d : Disk) : Prop where
  laid : s.Laid d
  part : ∀ n, d.content (s.partPath id n) = parts[n]?

/-- A run that performs its next `m` operations goes on, and one that does
not has stopped. The disk satisfies `P` in either case. -/
inductive Advances {β : Type} (P : Disk → Prop) (fates : ℕ → Fate) (m : ℕ)
    (next : Disk → Option (Except TusError β) × Disk) :
    Option (Except TusError β) × Disk → Prop where
  | halted {r : Option (Except TusError β)} {d : Disk} (hfate : ∃ i < m, fates i ≠ .perform)
      (hd : P d) : Advances P fates m next (r, d)
  | passed {d : Disk} (hfates : ∀ i < m, fates i = .perform) (hd : P d) :
      Advances P fates m next (next d)

section Retry

variable {s : FileStore} {d d' : Disk} {id : UploadId} {parts : List Bytes} {order : Listing}
  {error : IoError} {fates : ℕ → Fate}

section Advances

variable {β : Type} {P : Disk → Prop} {next next' : Disk → Option (Except TusError β) × Disk}
  {r : Option (Except TusError β) × Disk} {m n : ℕ}

theorem Advances.trans (hfirst : Advances P fates m next r)
    (hrest : ∀ d, P d → Advances P (fun i => fates (i + m)) n next' (next d)) :
    Advances P fates (m + n) next' r := by
  cases hfirst with
  | halted hfate hd =>
      obtain ⟨i, hi, hne⟩ := hfate
      exact .halted ⟨i, by omega, hne⟩ hd
  | @passed d hfates hd =>
      generalize hr : next d = r' at hrest ⊢
      have hd' := hrest d hd
      rw [hr] at hd'
      cases hd' with
      | halted hfate hd =>
          obtain ⟨i, hi, hne⟩ := hfate
          exact .halted ⟨i + m, by omega, hne⟩ hd
      | passed hfates' hd =>
          refine .passed (fun i hi => ?_) hd
          by_cases hlt : i < m
          · exact hfates i hlt
          · have hperform := hfates' (i - m) (by omega)
            rwa [Nat.sub_add_cancel (by omega)] at hperform

theorem Advances.io {o : FsOp} {v : o.Val} {f : o.Val → FsProg β} (hd : P d) (hd' : P d')
    (hop : Disk.interp order o d = (.ok v, d')) :
    Advances P fates 1
      (fun d => (f v).runFated (Disk.interp order) (fun _ => .error error)
        (fun i => fates (i + 1)) d)
      (((FsProg.io o).bind f).runFated (Disk.interp order) (fun _ => .error error) fates d) := by
  rw [fated_io_bind]
  cases hfate : fates 0 with
  | perform =>
      simp only [hop]
      exact .passed (by simp [hfate]) hd'
  | refuse => exact .halted ⟨0, by simp [hfate]⟩ hd
  | stop => exact .halted ⟨0, by simp [hfate]⟩ hd

end Advances

/-! ## Up to the removals -/

theorem HoldsParts.put (hd : s.HoldsParts id parts d) (hid : id.Valid) (hmade : s.dir ∈ d.dirs)
    (c : Bytes) : s.HoldsParts id parts (d.put (s.dataPath id) c) where
  laid := by
    refine ⟨fun q hq => ?_, hd.laid.dirs, fun _ _ => hmade⟩
    by_cases hdata : q = s.dataPath id
    · exact ⟨id, .data, hid, hdata⟩
    · rw [Disk.content_put_of_ne hdata] at hq
      exact hd.laid.known q hq
  part n := by
    have hne : s.partPath id n ≠ s.dataPath id := fun hpath => by
      cases (s.path_injective hid hid hpath).2
    rw [Disk.content_put_of_ne hne, hd.part]

theorem HoldsParts.numbers (hd : s.HoldsParts id parts d) (hbound : parts.length ≤ U32_BOUND) :
    s.Numbers d id (List.range parts.length) where
  sorted := List.pairwise_lt_range
  bounded n hn := (List.mem_range.mp hn).trans_le hbound
  mem_iff n := by
    rw [hd.part, List.mem_range]
    simp

theorem HoldsParts.copy (hd : s.HoldsParts id parts d) (hid : id.Valid) (src : Path) :
    s.HoldsParts id parts (d.copy src (s.dataPath id)) := by
  unfold Disk.copy
  split
  · next new old hnew hold =>
      exact hd.put hid (hd.laid.made (s.dataPath id) (by simp [hold])) _
  · exact hd

theorem HoldsParts.copyAll_advances {β : Type} {f : Unit → FsProg β} (hid : id.Valid)
    {idxs : List ℕ} (hidxs : ∀ n ∈ idxs, n < parts.length) (hd : s.HoldsParts id parts d) :
    Advances (s.HoldsParts id parts) fates (2 * idxs.length)
      (fun d => (f ()).runFated (Disk.interp order) (fun _ => .error error)
        (fun i => fates (i + 2 * idxs.length)) d)
      (((copyAll (s.dataPath id) (idxs.map (s.partPath id))).bind f).runFated (Disk.interp order)
        (fun _ => .error error) fates d) := by
  induction idxs generalizing fates d with
  | nil => exact .passed (by simp) hd
  | cons n idxs ih =>
      obtain ⟨hn, hidxs⟩ := List.forall_mem_cons.mp hidxs
      have hopen {d : Disk} (hd : s.HoldsParts id parts d) :
          Disk.interp order (.openRead (s.partPath id n)) d = (.ok (), d) := by
        have hsome : d.content (s.partPath id n) = some parts[n] := by
          rw [hd.part, List.getElem?_eq_getElem hn]
        simp [Disk.interp, Disk.read, hsome, Except.map]
      have hlength : 2 * (n :: idxs).length = 1 + (1 + 2 * idxs.length) := by
        rw [List.length_cons]
        omega
      have hshift : (fun i => fates (i + (1 + (1 + 2 * idxs.length)))) =
          fun i => fates (i + 2 * idxs.length + 1 + 1) := by
        funext i
        congr 1
        omega
      rw [hlength, hshift, List.map_cons, copyAll]
      simp only [Prog.bind_eq, Prog.bind_assoc]
      apply (Advances.io (o := .openRead (s.partPath id n)) hd hd (hopen hd)).trans
      intro d₁ hd₁
      apply (Advances.io (o := .copy (s.partPath id n) (s.dataPath id)) hd₁ (hd₁.copy hid _)
        rfl).trans
      intro d₂ hd₂
      exact ih hidxs hd₂

/-- Everything before the removals, when there are parts. -/
theorem HoldsParts.finalize_advances (hd : s.HoldsParts id parts d) (hid : id.Valid)
    (hbound : parts.length ≤ U32_BOUND) (hparts : parts ≠ []) :
    Advances (s.HoldsParts id parts) fates (5 + 2 * parts.length)
      (fun d => (removeAll ((List.range parts.length).map (s.partPath id))).runFated
        (Disk.interp order) (fun _ => .error error) (fun i => fates (i + (5 + 2 * parts.length))) d)
      (s.finalizeFated id order fates error d) := by
  have hmade {d : Disk} (hd : s.HoldsParts id parts d) : s.dir ∈ d.dirs := by
    apply hd.laid.made (s.partPath id 0)
    rw [hd.part]
    simpa using hparts
  have hidxs : ∀ n ∈ List.range parts.length, n < parts.length := fun n hn => List.mem_range.mp hn
  have hmap : (List.range parts.length).map (s.partPath id) ≠ [] := by simpa using hparts
  have hlength : 5 + 2 * parts.length =
      1 + (1 + (1 + (1 + (2 * (List.range parts.length).length + 1)))) := by
    rw [List.length_range]
    omega
  have hshift : (fun i => fates (i + (1 + (1 + (1 + (1 + (2 * (List.range parts.length).length +
      1))))))) = fun i => fates (i + 1 + 2 * (List.range parts.length).length + 1 + 1 + 1 + 1) := by
    funext i
    congr 1
    omega
  rw [hlength, hshift]
  simp only [finalizeFated, finalize, listPartPathsSorted, infoPath, s.parent_path hid,
    Prog.bind_eq, Prog.bind_assoc, FsProg.tryExists]
  apply (Advances.io (v := true) hd hd (by simp [Disk.interp, hmade hd])).trans
  intro d₁ hd₁
  simp only [if_true, Prog.bind_assoc, FsProg.readDir]
  apply (Advances.io (v := order.1 (d₁.names s.dir)) hd₁ hd₁
    (by simp only [Disk.interp, hmade hd₁, if_true])).trans
  intro d₂ hd₂
  simp only [Prog.pure_eq, Prog.ret_bind, hd₁.laid.sortedParts_eq hid (hd₁.numbers hbound),
    createParent, dataPath, s.parent_path hid, hmap, if_false]
  obtain ⟨d₃, hcreate, hlaid₃, -, hfiles₃⟩ := hd₂.laid.interp_createDirAll hid order
  have hd₃ : s.HoldsParts id parts d₃ := by
    refine ⟨hlaid₃, fun n => ?_⟩
    rw [Disk.content, hfiles₃]
    exact hd₂.part n
  apply (Advances.io hd₂ hd₃ hcreate).trans
  intro d₄ hd₄
  have hopen : Disk.interp order (.openTruncate (s.path id .data)) d₄ =
      (.ok (), d₄.put (s.dataPath id) []) := hd₄.laid.write_eq hid .data [] (hmade hd₄)
  apply (Advances.io hd₄ (hd₄.put hid (hmade hd₄) []) hopen).trans
  intro d₅ hd₅
  apply (HoldsParts.copyAll_advances hid hidxs hd₅).trans
  intro d₆ hd₆
  have hflush : Disk.interp order (.flush (s.path id .data)) d₆ = (.ok (), d₆) := rfl
  rw [FsProg.flush]
  exact Advances.io (f := fun _ => removeAll _) hd₆ hd₆ hflush

/-- Without parts, only an empty data file is written. -/
theorem HoldsParts.finalize_empty (hd : s.HoldsParts id [] d) (hid : id.Valid) :
    s.HoldsParts id [] (s.finalizeFated id order fates error d).2 := by
  have hwrite {d : Disk} {fates : ℕ → Fate} (hd : s.HoldsParts id [] d) (hmade : s.dir ∈ d.dirs) :
      s.HoldsParts id [] ((FsProg.write (s.path id .data) []).runFated (Disk.interp order)
        (fun _ => .error error) fates d).2 := by
    have hop : Disk.interp order (.write (s.path id .data) []) d =
        (.ok (), d.put (s.dataPath id) []) := hd.laid.write_eq hid .data [] hmade
    simp only [FsProg.write, FsProg.io, Prog.runFated, hop]
    cases fates 0 with
    | perform => exact hd.put hid hmade []
    | refuse => exact hd
    | stop => exact hd
  have hrest {d : Disk} {fates : ℕ → Fate} (hd : s.HoldsParts id [] d) :
      s.HoldsParts id [] ((Prog.bind (FsProg.createDirAll s.dir) fun _ =>
        FsProg.write (s.path id .data) []).runFated (Disk.interp order) (fun _ => .error error)
          fates d).2 := by
    obtain ⟨d', hcreate, hlaid, hmade, hfiles⟩ := hd.laid.interp_createDirAll hid order
    have hd' : s.HoldsParts id [] d' := by
      refine ⟨hlaid, fun n => ?_⟩
      rw [Disk.content, hfiles]
      exact hd.part n
    rw [FsProg.createDirAll, fated_io_bind, hcreate]
    cases fates 0 with
    | perform => exact hwrite hd' hmade
    | refuse => exact hd
    | stop => exact hd
  simp only [finalizeFated, finalize, listPartPathsSorted, infoPath, s.parent_path hid,
    Prog.bind_eq, Prog.bind_assoc, FsProg.tryExists, createParent, dataPath]
  have hfile : s.dir ∉ d.files := by simp [mem_files_iff, hd.laid.dir_not_file List.prefix_rfl]
  have hexists : Disk.interp order (.tryExists s.dir) d = (.ok (decide (s.dir ∈ d.dirs)), d) := by
    simp [Disk.interp, hfile]
  rw [fated_io_bind, hexists]
  cases fates 0 with
  | refuse => exact hd
  | stop => exact hd
  | perform =>
      by_cases hmade : s.dir ∈ d.dirs
      · have hlist : Disk.interp order (.readDir s.dir) d =
            (.ok (order.1 (d.names s.dir)), d) := by
          simp only [Disk.interp, hmade, if_true]
        simp only [hmade, decide_true, if_true, Prog.bind_assoc, FsProg.readDir]
        rw [fated_io_bind, hlist]
        cases fates (0 + 1) with
        | refuse => exact hd
        | stop => exact hd
        | perform =>
            have hnone : sortedParts id s.dir (order.1 (d.names s.dir)) = [] :=
              hd.laid.sortedParts_eq hid (hd.numbers (Nat.zero_le _)) order
            simp only [Prog.pure_eq, Prog.ret_bind, hnone, if_true]
            exact hrest hd
      · simp only [hmade, decide_false, Bool.false_eq_true, if_false, Prog.pure_eq, Prog.ret_bind,
          if_true]
        exact hrest hd

/-! ## The removals -/

theorem removeFile_file {p : Path} (hp : d.content p ≠ none) :
    Disk.interp order (.removeFile p) d = (.ok (), { d with files := d.files.erase p }) := by
  have hfile : p ∈ d.files := mem_files_iff.mpr hp
  simp [Disk.interp, Disk.removeFile, hfile]

/-- A removal that does not find its file is no failure. -/
theorem removeAll_notFound {ps : List Path} {e : TusError} (hps : ∀ p ∈ ps, d.content p ≠ none)
    (hnodup : ps.Nodup) :
    ((removeAll ps).runFated (Disk.interp order) (fun _ => .error .notFound) fates d).1 ≠
      some (.error e) := by
  induction ps generalizing fates d with
  | nil => exact fun heq => by cases heq
  | cons p ps ih =>
      obtain ⟨hp, hps⟩ := List.forall_mem_cons.mp hps
      obtain ⟨hnot, hnodup⟩ := List.nodup_cons.mp hnodup
      simp only [removeAll, FsProg.removeFileIgnoreNotFound, Prog.bind_eq, Prog.op_bind,
        Prog.runFated, removeFile_file hp]
      cases fates 0 with
      | stop => exact fun heq => by cases heq
      | refuse => exact ih hps hnodup
      | perform =>
          apply ih _ hnodup
          intro q hq
          have hne : q ≠ p := fun heq => hnot (heq ▸ hq)
          have hsame : Disk.content { d with files := d.files.erase p } q = d.content q :=
            AList.lookup_erase_ne hne
          rw [hsame]
          exact hps q hq

/-- A failure among the removals leaves the files from there on. -/
theorem removeAll_failed {ps : List Path} {e : TusError} (hps : ∀ p ∈ ps, d.content p ≠ none)
    (hnodup : ps.Nodup)
    (hrun : (removeAll ps).runFated (Disk.interp order) (fun _ => .error error) fates d =
      (some (.error e), d')) :
    ∃ k, (∀ n < ps.length, (∀ i ≤ n, fates i = .perform) ↔ n < k) ∧ d'.dirs = d.dirs ∧
      ∀ q, d'.content q = if q ∈ ps.take k then none else d.content q := by
  induction ps generalizing fates d with
  | nil => cases (Prod.mk.inj hrun).1
  | cons p ps ih =>
      obtain ⟨hp, hps⟩ := List.forall_mem_cons.mp hps
      obtain ⟨hnot, hnodup⟩ := List.nodup_cons.mp hnodup
      simp only [removeAll, FsProg.removeFileIgnoreNotFound, Prog.bind_eq, Prog.op_bind,
        Prog.runFated, removeFile_file hp] at hrun
      cases hfate : fates 0 with
      | stop =>
          rw [hfate] at hrun
          cases (Prod.mk.inj hrun).1
      | refuse =>
          rw [hfate] at hrun
          have hnone (n : ℕ) : ¬ ∀ i ≤ n, fates i = .perform := fun hall => by
            cases hfate.symm.trans (hall 0 (Nat.zero_le n))
          have hsame : d' = d := by
            cases error with
            | notFound => exact absurd (congrArg Prod.fst hrun) (removeAll_notFound hps hnodup)
            | other => exact (Prod.mk.inj hrun).2.symm
          refine ⟨0, fun n _ => iff_of_false (hnone n) (Nat.not_lt_zero n), by rw [hsame], ?_⟩
          simp [hsame]
      | perform =>
          rw [hfate] at hrun
          have hother {q : Path} (hne : q ≠ p) :
              Disk.content { d with files := d.files.erase p } q = d.content q :=
            AList.lookup_erase_ne hne
          have hps₁ : ∀ q ∈ ps, Disk.content { d with files := d.files.erase p } q ≠ none := by
            intro q hq
            rw [hother fun heq => hnot (heq ▸ hq)]
            exact hps q hq
          obtain ⟨k, hk, hdirs, hcontent⟩ := ih hps₁ hnodup hrun
          refine ⟨k + 1, fun n hn => ?_, hdirs, fun q => ?_⟩
          · cases n with
            | zero => simp [hfate]
            | succ n =>
                rw [List.length_cons] at hn
                rw [Nat.add_lt_add_iff_right, ← hk n (by omega)]
                constructor
                · exact fun hall i hi => hall (i + 1) (by omega)
                · intro hall i hi
                  cases i with
                  | zero => exact hfate
                  | succ i => exact hall i (by omega)
          · rw [hcontent, List.take_succ_cons]
            by_cases hq : q = p
            · have hgone : Disk.content { d with files := d.files.erase p } p = none :=
                AList.lookup_erase ..
              simp [hq, hgone]
            · simp [hq, hother hq]

/-- What a failed `finalize` leaves: the parts whose removal was not
performed. -/
theorem finalizeFated_failed (hd : s.HoldsParts id parts d) (hid : id.Valid)
    (hbound : parts.length ≤ U32_BOUND) {e : TusError} {d₁ : Disk}
    (hfailed : s.finalizeFated id order fates error d = (some (.error e), d₁)) :
    ∃ k, (∀ n < parts.length, Removes fates parts.length n ↔ n < k) ∧ s.Laid d₁ ∧
      ∀ n, d₁.content (s.partPath id n) = if n < k then none else parts[n]? := by
  by_cases hparts : parts = []
  · subst hparts
    have hd₁ : s.HoldsParts id [] (s.finalizeFated id order fates error d).2 :=
      hd.finalize_empty hid
    rw [hfailed] at hd₁
    exact ⟨0, fun n hn => absurd hn (Nat.not_lt_zero n), hd₁.laid, fun n => by simp [hd₁.part]⟩
  have hadv := @HoldsParts.finalize_advances s d id parts order error fates hd hid hbound hparts
  rw [hfailed] at hadv
  generalize hr : (some (Except.error e), d₁) = r at hadv
  cases hadv with
  | halted hfate hd₁ =>
      obtain ⟨i, hi, hne⟩ := hfate
      obtain ⟨-, rfl⟩ := Prod.mk.inj hr
      refine ⟨0, fun n _ => iff_of_false (fun hall => hne (hall i (by omega))) (Nat.not_lt_zero n),
        hd₁.laid, fun n => ?_⟩
      rw [hd₁.part, if_neg (Nat.not_lt_zero n)]
  | @passed d' hfates hd₁ =>
      have hinjective : Function.Injective (s.partPath id) := fun m n hpath => by
        simpa using (s.path_injective hid hid hpath).2
      have hpresent : ∀ p ∈ (List.range parts.length).map (s.partPath id),
          d'.content p ≠ none := List.forall_mem_map.mpr fun n hn => by
        rw [hd₁.part]
        simpa using List.mem_range.mp hn
      obtain ⟨k, hk, hdirs, hcontent⟩ := removeAll_failed hpresent
        (List.nodup_range.map hinjective) hr.symm
      have hlaid : s.Laid d₁ := by
        refine hd₁.laid.of_le (fun q hq => ?_) hdirs
        rw [hcontent] at hq
        split at hq
        · exact absurd rfl hq
        · exact hq
      refine ⟨k, fun n hn => ?_, hlaid, fun n => ?_⟩
      · rw [← hk n (by simpa using hn)]
        constructor
        · exact fun hall i hi => hall _ (by omega)
        · intro hall i hi
          by_cases hlt : i < 5 + 2 * parts.length
          · exact hfates i hlt
          · have hperform := hall (i - (5 + 2 * parts.length)) (by omega)
            rwa [Nat.sub_add_cancel (by omega)] at hperform
      · simp only [hcontent, hd₁.part, ← List.map_take, List.mem_map_of_injective hinjective,
          List.take_range, List.mem_range]
        by_cases hlt : n < parts.length
        · simp [hlt]
        · simp [hlt]

/-- Finalizing joins the parts that are left. -/
theorem finalize_rest (hd : s.Laid d) (hid : id.Valid) (hbound : parts.length ≤ U32_BOUND) {k : ℕ}
    (hleft : ∀ n, d.content (s.partPath id n) = if n < k then none else parts[n]?)
    (order : Listing) :
    ∃ d', s.interp order (.finalize id) d = (.ok (), d') ∧
      d'.content (s.dataPath id) = some (parts.drop k).flatten := by
  have hnumbers : s.Numbers d id (List.range' k (parts.length - k)) := by
    refine ⟨List.pairwise_lt_range', fun n hn => ?_, fun n => ?_⟩
    · have hmem := List.mem_range'_1.mp hn
      omega
    · rw [List.mem_range'_1, hleft]
      by_cases hlt : n < k
      · simp [hlt]
      · simp [hlt]
        omega
  obtain ⟨d', hrun, -, hcontent⟩ := hd.run_finalize hid hnumbers order
  refine ⟨d', hrun, ?_⟩
  have hlength : (parts.drop k).length = parts.length - k := List.length_drop
  rw [hcontent, if_pos rfl, ← flatMap_getD_range, hlength, List.range'_eq_map_range,
    List.flatMap_map]
  congr 1
  refine List.flatMap_congr fun n _ => ?_
  simp [hleft]

/-- The retry of a failed `finalize`, with the parts as the failure left
them, makes the data the joined parts exactly when every part that had been
removed is empty. -/
theorem finalize_retry_iff {d₁ d₂ d₃ : Disk} {order' : Listing} {e : TusError}
    (hd : s.HoldsParts id parts d) (hid : id.Valid) (hbound : parts.length ≤ U32_BOUND)
    (hfailed : s.finalizeFated id order fates error d = (some (.error e), d₁))
    (hlaid : s.Laid d₂)
    (hkept : ∀ n, d₂.content (s.partPath id n) = d₁.content (s.partPath id n))
    (hretry : s.interp order' (.finalize id) d₂ = (.ok (), d₃)) :
    d₃.content (s.dataPath id) = some parts.flatten ↔
      ∀ n part, parts[n]? = some part → Removes fates parts.length n → part = [] := by
  obtain ⟨k, hk, -, hleft⟩ := finalizeFated_failed hd hid hbound hfailed
  obtain ⟨d', hrun, hcontent⟩ :=
    finalize_rest hlaid hid hbound (fun n => (hkept n).trans (hleft n)) order'
  obtain ⟨-, rfl⟩ := Prod.mk.inj (hrun.symm.trans hretry)
  have hsplit : parts.flatten = (parts.take k).flatten ++ (parts.drop k).flatten := by
    rw [← List.flatten_append, List.take_append_drop]
  rw [hcontent, Option.some.injEq, hsplit, List.self_eq_append_left, List.flatten_eq_nil_iff]
  constructor
  · intro hempty n part hpart hremoves
    have hlt := (hk n (List.getElem?_eq_some_iff.mp hpart).1).mp hremoves
    apply hempty
    rw [List.mem_iff_getElem?]
    exact ⟨n, by rw [List.getElem?_take_of_lt hlt, hpart]⟩
  · intro hempty part hmem
    obtain ⟨n, hn⟩ := List.mem_iff_getElem?.mp hmem
    by_cases hlt : n < k
    · rw [List.getElem?_take_of_lt hlt] at hn
      exact hempty n part hn ((hk n (List.getElem?_eq_some_iff.mp hn).1).mpr hlt)
    · rw [List.getElem?_take_eq_none (by omega)] at hn
      cases hn

theorem Keeps.holdsParts {t : Slots} (hd : s.Keeps d t) (hid : id.Valid) :
    s.HoldsParts id (t id).parts d where
  laid := hd.laid
  part n := by rw [partPath, hd.file id hid, FileStore.file]

end Retry

namespace LostPart

open TwoChunks

/-- The removal of the second part fails. -/
def fates (n : ℕ) : Fate := if n = 10 then .refuse else .perform

def interrupted : Disk := (uploads.finalizeFated info.id order fates .other second).2

def retried : Disk := (uploads.interp order (.finalize info.id) interrupted).2

theorem holds_second : uploads.HoldsParts info.id [[1, 2], [3]] second := by
  have hparts : (slotsSecond info.id).parts = [[1, 2], [3]] := rfl
  rw [← hparts]
  exact keeps_second.holdsParts valid

theorem few : ([[1, 2], [3]] : List Bytes).length ≤ U32_BOUND := Nat.le_of_lt (by decide)

theorem finalize_answer : (uploads.finalizeFated info.id order fates .other second).1 =
    some (.error (.io .other)) := by
  have hadv := @HoldsParts.finalize_advances uploads second info.id [[1, 2], [3]] order .other fates
    holds_second valid few (by simp)
  generalize uploads.finalizeFated info.id order fates .other second = r at hadv
  cases hadv with
  | halted hfate =>
      obtain ⟨i, hi, hne⟩ := hfate
      have hperform : fates i = .perform := if_neg (by simp at hi; omega)
      exact absurd hperform hne
  | @passed d _ hd =>
      have hfirst : d.content (uploads.partPath info.id 0) ≠ none := by
        rw [hd.part]
        simp
      simp [List.range, List.range.loop, removeAll, FsProg.removeFileIgnoreNotFound, Prog.runFated,
        fates, removeFile_file hfirst]

theorem finalize_fails : uploads.finalizeFated info.id order fates .other second =
    (some (.error (.io .other)), interrupted) := by
  have heta := Prod.mk.eta (p := uploads.finalizeFated info.id order fates .other second)
  rw [finalize_answer] at heta
  rw [interrupted]
  exact heta.symm

theorem failed_leaves : uploads.Laid interrupted ∧ ∀ n,
    interrupted.content (uploads.partPath info.id n) =
      if n < 1 then none else ([[1, 2], [3]] : List Bytes)[n]? := by
  obtain ⟨k, hk, hlaid, hleft⟩ :=
    finalizeFated_failed holds_second valid few finalize_fails
  have hremoved : 0 < k := by
    apply (hk 0 (by simp)).mp
    intro i hi
    exact if_neg (by simp at hi; omega)
  have hrefused : ¬ 1 < k := by
    intro hlt
    have hperform := (hk 1 (by simp)).mpr hlt 10 (by simp)
    cases hperform
  obtain rfl : k = 1 := by omega
  exact ⟨hlaid, hleft⟩

end LostPart

open TwoChunks LostPart in
theorem finalize_retry_iff_second :
    retried.content (uploads.dataPath info.id) = some [1, 2, 3] ↔
      ∀ n part, ([[1, 2], [3]] : List Bytes)[n]? = some part → Removes fates 2 n → part = [] := by
  obtain ⟨d', hretry, -⟩ :=
    finalize_rest failed_leaves.1 valid few failed_leaves.2 order
  have heq : retried = d' := by rw [retried, hretry]
  exact finalize_retry_iff holds_second valid few finalize_fails failed_leaves.1
    (fun _ => rfl) (heq ▸ hretry)

open TwoChunks LostPart in
/-- The first part is gone after the failure, and the retry joins the rest. -/
theorem retry_loses_part :
    uploads.HoldsParts info.id [[1, 2], [3]] second ∧
      uploads.finalizeFated info.id order fates .other second =
        (some (.error (.io .other)), interrupted) ∧
      uploads.interp order (.finalize info.id) interrupted = (.ok (), retried) ∧
      retried.content (uploads.dataPath info.id) = some [3] := by
  obtain ⟨d', hretry, hcontent⟩ :=
    finalize_rest failed_leaves.1 valid few failed_leaves.2 order
  have heq : retried = d' := by rw [retried, hretry]
  exact ⟨holds_second, finalize_fails, heq ▸ hretry, heq ▸ hcontent⟩

end Fileloft.FileStore
