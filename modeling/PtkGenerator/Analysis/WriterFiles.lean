import PtkGenerator.Model.FileWriter

/-!
# One writer and its file

The name of a file says in which second and for which CPU it was created, and nothing else.  The
task of a writer touches the two names of its file only, and while nobody else does, the file
holds what the task has written, and the queue the rest of what was sent (`TaskOk`).
-/

set_option autoImplicit false

namespace PtkGenerator

open Decimal

/-! ## The names of the files -/

/-- A file name is the directory, the second, the CPU and the suffix. -/
theorem toList_getFileName (time idx : ℕ) (dir suffix : String) :
    (getFileName time idx dir suffix).toList =
      dir.toList ++ ((Nat.repr time).toList ++ '-' :: (Nat.repr idx).toList) ++
        '.' :: suffix.toList := by
  simp [getFileName]

/-- The final name is the first one with another suffix. -/
theorem getCompleteName_getFileName (time idx : ℕ) (dir suffix : String) :
    getCompleteName (getFileName time idx dir suffix) suffix = getFileName time idx dir "data" := by
  apply String.toList_inj.mp
  have hlen : (getFileName time idx dir suffix).length - suffix.length =
      (dir.toList ++ ((Nat.repr time).toList ++ '-' :: (Nat.repr idx).toList) ++ ['.']).length := by
    rw [← String.length_toList, ← String.length_toList, toList_getFileName]
    simp only [List.length_append, List.length_cons, List.length_nil]
    omega
  rw [getCompleteName, hlen, String.toList_append, String.toList_ofList, toList_getFileName,
    toList_getFileName, List.append_cons _ '.' suffix.toList, List.take_left,
    List.append_cons _ '.' "data".toList]

/-- INTERNAL: **a name says the second and the CPU.** -/
theorem getFileName_inj {time time' idx idx' : ℕ} {dir suffix : String}
    (h : getFileName time idx dir suffix = getFileName time' idx' dir suffix) :
    time = time' ∧ idx = idx' := by
  have hlist := congrArg String.toList h
  rw [toList_getFileName, toList_getFileName] at hlist
  obtain ⟨htime, hidx⟩ := append_repr_inj (by decide)
    (List.append_cancel_left (List.append_cancel_right hlist))
  exact ⟨toList_repr_inj htime, hidx⟩

/-- No file has a final name as its first one. -/
theorem tmp_ne_data (time time' idx idx' : ℕ) (dir : String) :
    getFileName time idx dir "tmp" ≠ getFileName time' idx' dir "data" := by
  intro h
  have hlist := congrArg (fun s : String => s.toList.reverse.head?) h
  have htmp : ('.' :: "tmp".toList).reverse = ['p', 'm', 't', '.'] := by decide
  have hdata : ('.' :: "data".toList).reverse = ['a', 't', 'a', 'd', '.'] := by decide
  simp only [toList_getFileName, List.reverse_append, htmp, hdata, List.cons_append,
    List.head?_cons] at hlist
  revert hlist
  decide

/-! ## The file system -/

namespace FileSystem

/-- No file has two names, and the names in use have files. -/
structure Ok (fs : FileSystem) : Prop where
  inj : ∀ m n f, fs.dir.lookup m = some f → fs.dir.lookup n = some f → m = n
  lt : ∀ n f, fs.dir.lookup n = some f → f < fs.next

/-- The name has the file it had, and the file the content. -/
def SameAt (fs fs' : FileSystem) (n : String) : Prop :=
  fs'.dir.lookup n = fs.dir.lookup n ∧
    ∀ f, fs.dir.lookup n = some f → fs'.content f = fs.content f

/-- Nothing has changed at any name. -/
theorem SameAt.refl (fs : FileSystem) (n : String) : fs.SameAt fs n := ⟨rfl, fun _ _ => rfl⟩

/-- What has not changed in two steps has not changed. -/
theorem SameAt.trans {fs₁ fs₂ fs₃ : FileSystem} {n : String} (h : fs₁.SameAt fs₂ n)
    (h' : fs₂.SameAt fs₃ n) : fs₁.SameAt fs₃ n := by
  refine ⟨h'.1.trans h.1, fun f hf => ?_⟩
  rw [h'.2 f (h.1.trans hf), h.2 f hf]

/-- A name whose file has not changed holds data if it did before. -/
theorem SameAt.holds_eq {fs fs' : FileSystem} {n : String} (h : fs.SameAt fs' n) :
    fs'.holds n = fs.holds n := by
  unfold holds
  rw [h.1]
  cases hn : fs.dir.lookup n with
  | none => rfl
  | some f =>
    dsimp only
    rw [h.2 f hn]

/-- A created file is empty, and the other names keep theirs. -/
theorem create_spec {fs : FileSystem} (h : fs.Ok) (name : String) :
    ∃ fs' f, fs.create name = (fs', f) ∧ fs'.Ok ∧ fs'.dir.lookup name = some f ∧
      fs'.content f = [] ∧ (∀ n, n ≠ name → fs.SameAt fs' n) ∧
      fs'.overwrote = (fs.overwrote || fs.holds name) := by
  cases hlookup : fs.dir.lookup name with
  | some f =>
    refine ⟨{ fs with
        content := Function.update fs.content f []
        overwrote := fs.overwrote || fs.holds name }, f, by simp only [create, hlookup],
      ⟨h.inj, h.lt⟩, hlookup, Function.update_self .., fun n hn => ⟨rfl, fun g hg => ?_⟩, rfl⟩
    refine Function.update_of_ne (fun e => hn ?_) ..
    exact h.inj n name f (e ▸ hg) hlookup
  | none =>
    have hother : ∀ n g, n ≠ name →
        ((fs.dir.insert name fs.next).lookup n = some g ↔ fs.dir.lookup n = some g) := by
      intro n g hn
      rw [Finmap.lookup_insert_of_ne _ hn]
    refine ⟨{ fs with
        dir := fs.dir.insert name fs.next
        content := Function.update fs.content fs.next []
        next := fs.next + 1 }, fs.next, by simp only [create, hlookup], ⟨?_, ?_⟩,
      Finmap.lookup_insert _, Function.update_self ..,
      fun n hn => ⟨Finmap.lookup_insert_of_ne _ hn, fun g hg => ?_⟩, ?_⟩
    · intro m n g hm hn
      by_cases em : m = name
      · by_cases en : n = name
        · rw [em, en]
        · subst em
          rw [Finmap.lookup_insert, Option.some.injEq] at hm
          subst hm
          exact absurd (h.lt n _ ((hother n _ en).mp hn)) (lt_irrefl _)
      · by_cases en : n = name
        · subst en
          rw [Finmap.lookup_insert, Option.some.injEq] at hn
          subst hn
          exact absurd (h.lt m _ ((hother m _ em).mp hm)) (lt_irrefl _)
        · exact h.inj m n g ((hother m g em).mp hm) ((hother n g en).mp hn)
    · intro n g hn
      by_cases en : n = name
      · subst en
        rw [Finmap.lookup_insert, Option.some.injEq] at hn
        subst hn
        exact Nat.lt_succ_self _
      · exact Nat.lt_succ_of_lt (h.lt n g ((hother n g en).mp hn))
    · exact Function.update_of_ne (h.lt n g hg).ne ..
    · simp [holds, hlookup]

/-- A write changes the file of its name only, and appends at the end. -/
theorem writeAt_spec {fs : FileSystem} (h : fs.Ok) {name : String} {f : ℕ}
    (hf : fs.dir.lookup name = some f) (pos : ℕ) (d : Bytes) :
    (fs.writeAt f pos d).Ok ∧ (fs.writeAt f pos d).dir = fs.dir ∧
      (∀ n, n ≠ name → fs.SameAt (fs.writeAt f pos d) n) ∧
      (fs.writeAt f pos d).overwrote = fs.overwrote ∧
      (pos = (fs.content f).length → (fs.writeAt f pos d).content f = fs.content f ++ d) := by
  refine ⟨⟨h.inj, h.lt⟩, rfl, fun n hn => ⟨rfl, fun g hg => ?_⟩, rfl, ?_⟩
  · refine Function.update_of_ne (fun e => hn ?_) ..
    exact h.inj n name f (e ▸ hg) hf
  · rintro rfl
    simp [writeAt]

/-- A rename gives the file its new name, over the file that had it. -/
theorem rename_spec {fs : FileSystem} (h : fs.Ok) {a b : String} (hne : a ≠ b) {f : ℕ}
    (hf : fs.dir.lookup a = some f) :
    ∃ fs', fs.rename a b = some fs' ∧ fs'.Ok ∧ fs'.dir.lookup b = some f ∧
      fs'.dir.lookup a = none ∧ fs'.content = fs.content ∧
      (∀ n, n ≠ a → n ≠ b → fs.SameAt fs' n) ∧
      fs'.overwrote = (fs.overwrote || fs.holds b) := by
  have ha : ((fs.dir.erase a).insert b f).lookup a = none := by
    rw [Finmap.lookup_insert_of_ne _ hne, Finmap.lookup_erase]
  have hother : ∀ n, n ≠ a → n ≠ b →
      ((fs.dir.erase a).insert b f).lookup n = fs.dir.lookup n := by
    intro n hna hnb
    rw [Finmap.lookup_insert_of_ne _ hnb, Finmap.lookup_erase_ne hna]
  -- a name of the new directory that has the file of `g` had it before, or is `b`
  have hback : ∀ n g, ((fs.dir.erase a).insert b f).lookup n = some g →
      (n = b ∧ g = f) ∨ (n ≠ a ∧ n ≠ b ∧ fs.dir.lookup n = some g) := by
    intro n g hn
    by_cases hnb : n = b
    · subst hnb
      rw [Finmap.lookup_insert, Option.some.injEq] at hn
      exact .inl ⟨rfl, hn.symm⟩
    · have hna : n ≠ a := by
        rintro rfl
        rw [ha] at hn
        cases hn
      exact .inr ⟨hna, hnb, (hother n hna hnb) ▸ hn⟩
  refine ⟨{ fs with
      dir := (fs.dir.erase a).insert b f
      overwrote := fs.overwrote || fs.holds b }, by simp only [rename, hf], ⟨?_, ?_⟩,
    Finmap.lookup_insert _, ha, rfl, fun n hna hnb => ⟨hother n hna hnb, fun _ _ => rfl⟩, rfl⟩
  · intro m n g hm hn
    rcases hback m g hm with ⟨rfl, rfl⟩ | ⟨hma, -, hm'⟩
    · rcases hback n g hn with ⟨rfl, -⟩ | ⟨hna, -, hn'⟩
      · rfl
      · exact absurd (h.inj n a g hn' hf) hna
    · rcases hback n g hn with ⟨rfl, rfl⟩ | ⟨-, -, hn'⟩
      · exact absurd (h.inj m a g hm' hf) hma
      · exact h.inj m n g hm' hn'
  · intro n g hn
    rcases hback n g hn with ⟨-, rfl⟩ | ⟨-, -, hn⟩
    · exact h.lt a g hf
    · exact h.lt n g hn

end FileSystem

/-! ## One task and its file -/

/-- The file of a task holds what the task has written, and the rest is in its queue. -/
def TaskOk (fs : FileSystem) (t : WriterTask) : Prop :=
  match t.phase with
  | .spawned => fs.dir.lookup t.fName = none ∧ fs.dir.lookup t.completeName = none ∧
      t.sent = t.rx.flatten
  | .writing f pos => fs.dir.lookup t.fName = some f ∧ fs.dir.lookup t.completeName = none ∧
      pos = (fs.content f).length ∧ t.sent = fs.content f ++ t.rx.flatten
  | .flushed => (∃ f, fs.dir.lookup t.fName = some f ∧ t.sent = fs.content f) ∧
      fs.dir.lookup t.completeName = none ∧ t.txDropped = true
  | .ended => fs.dir.lookup t.fName = none ∧
      (∃ f, fs.dir.lookup t.completeName = some f ∧ t.sent = fs.content f) ∧ t.txDropped = true
  | .failed => False

/-- A name without a file holds no data. -/
theorem FileSystem.holds_of_lookup_eq_none {fs : FileSystem} {name : String}
    (h : fs.dir.lookup name = none) : fs.holds name = false := by
  rw [holds, h]

/-- A task stays with its file when nothing has changed at its names. -/
theorem TaskOk.frame {fs fs' : FileSystem} {t : WriterTask} (h : TaskOk fs t)
    (hf : fs.SameAt fs' t.fName) (hc : fs.SameAt fs' t.completeName) : TaskOk fs' t := by
  unfold TaskOk at h ⊢
  rw [hf.1, hc.1]
  split at h
  · exact h
  · next f pos _ =>
    rw [hf.2 f h.1]
    exact h
  · obtain ⟨⟨f, hlookup, hsent⟩, hrest⟩ := h
    exact ⟨⟨f, hlookup, (hf.2 f hlookup).symm ▸ hsent⟩, hrest⟩
  · obtain ⟨hnone, ⟨f, hlookup, hsent⟩, hdrop⟩ := h
    exact ⟨hnone, ⟨f, hlookup, (hc.2 f hlookup).symm ▸ hsent⟩, hdrop⟩
  · exact h

/-- What a step of a task leaves alone of it. -/
structure WriterTask.Same (t t' : WriterTask) : Prop where
  fName : t'.fName = t.fName
  completeName : t'.completeName = t.completeName
  txDropped : t'.txDropped = t.txDropped
  created : t'.created = t.created
  sent : t'.sent = t.sent

/-- INTERNAL: **a step of a task** touches the two names of its file only, and keeps what the file
holds in step with what was sent.
SRC: file_writer/mod.rs:16-25 -/
theorem TaskOk.step {fs fs' : FileSystem} {t t' : WriterTask} (hfs : fs.Ok) (h : TaskOk fs t)
    (hne : t.fName ≠ t.completeName) (ht : t.step fs = some (fs', t')) :
    fs'.Ok ∧ TaskOk fs' t' ∧ t.Same t' ∧ fs'.overwrote = fs.overwrote ∧
      ∀ n, n ≠ t.fName → n ≠ t.completeName → fs.SameAt fs' n := by
  unfold TaskOk at h
  obtain ⟨f, hp, hcreate, rfl⟩ | ⟨f, pos, d, rx, hp, hrx, rfl, rfl⟩ |
    ⟨f, pos, hp, hrx, hdrop, rfl, rfl⟩ | ⟨hp, hrename, rfl⟩ | ⟨hp, hrename, rfl, rfl⟩ :=
      WriterTask.step_cases ht
  · simp only [hp] at h
    obtain ⟨hf, hc, hsent⟩ := h
    obtain ⟨fs₁, f₁, hcreate₁, hok, hlookup, hcontent, hsame, hover⟩ :=
      FileSystem.create_spec hfs t.fName
    obtain ⟨rfl, rfl⟩ := Prod.mk.inj (hcreate.symm.trans hcreate₁)
    rw [FileSystem.holds_of_lookup_eq_none hf, Bool.or_false] at hover
    refine ⟨hok, ⟨hlookup, ?_, ?_, ?_⟩, ⟨rfl, rfl, rfl, rfl, rfl⟩, hover, fun n hn _ => hsame n hn⟩
    · exact (hsame t.completeName hne.symm).1.trans hc
    · rw [hcontent, List.length_nil]
    · rw [hcontent, List.nil_append]
      exact hsent
  · simp only [hp] at h
    obtain ⟨hlookup, hc, hpos, hsent⟩ := h
    obtain ⟨hok, hdir, hsame, hover, hcontent⟩ := FileSystem.writeAt_spec hfs hlookup pos d
    refine ⟨hok, ⟨hdir ▸ hlookup, hdir ▸ hc, ?_, ?_⟩, ⟨rfl, rfl, rfl, rfl, rfl⟩, hover,
      fun n hn _ => hsame n hn⟩
    · rw [hcontent hpos, List.length_append, hpos]
    · rw [hcontent hpos, List.append_assoc]
      rw [hrx, List.flatten_cons] at hsent
      exact hsent
  · simp only [hp] at h
    obtain ⟨hlookup, hc, -, hsent⟩ := h
    rw [hrx, List.flatten_nil, List.append_nil] at hsent
    exact ⟨hfs, ⟨⟨f, hlookup, hsent⟩, hc, hdrop⟩, ⟨rfl, rfl, rfl, rfl, rfl⟩, rfl,
      fun n _ _ => .refl _ n⟩
  · simp only [hp] at h
    obtain ⟨⟨f, hlookup, hsent⟩, hc, hdrop⟩ := h
    obtain ⟨fs₁, hrename₁, hok, hlookup', hnone, hcontent, hsame, hover⟩ :=
      FileSystem.rename_spec hfs hne hlookup
    obtain rfl := Option.some.inj (hrename.symm.trans hrename₁)
    rw [FileSystem.holds_of_lookup_eq_none hc, Bool.or_false] at hover
    exact ⟨hok, ⟨hnone, ⟨f, hlookup', hcontent ▸ hsent⟩, hdrop⟩, ⟨rfl, rfl, rfl, rfl, rfl⟩, hover,
      hsame⟩
  · simp only [hp] at h
    obtain ⟨⟨f, hlookup, -⟩, -, -⟩ := h
    obtain ⟨fs₁, hrename₁, -⟩ := FileSystem.rename_spec hfs hne hlookup
    cases hrename.symm.trans hrename₁

/-- More bytes are sent to a task whose writer is there. -/
theorem TaskOk.send {fs : FileSystem} {t : WriterTask} (h : TaskOk fs t)
    (hopen : t.txDropped = false) (d : Bytes) :
    TaskOk fs { t with rx := t.rx ++ [d], sent := t.sent ++ d } := by
  unfold TaskOk at h ⊢
  have hflat : (t.rx ++ [d]).flatten = t.rx.flatten ++ d := by simp
  dsimp only
  split at h
  · obtain ⟨hf, hc, hsent⟩ := h
    exact ⟨hf, hc, by rw [hflat, hsent]⟩
  · obtain ⟨hf, hc, hpos, hsent⟩ := h
    exact ⟨hf, hc, hpos, by rw [hflat, hsent, List.append_assoc]⟩
  · obtain ⟨-, -, hdrop⟩ := h
    rw [hopen] at hdrop
    cases hdrop
  · obtain ⟨-, -, hdrop⟩ := h
    rw [hopen] at hdrop
    cases hdrop
  · exact h

/-- A task whose sender is dropped stays with its file. -/
theorem TaskOk.drop {fs : FileSystem} {t : WriterTask} (h : TaskOk fs t) :
    TaskOk fs { t with txDropped := true } := by
  unfold TaskOk at h ⊢
  dsimp only
  split at h
  · exact h
  · exact h
  · exact ⟨h.1, h.2.1, rfl⟩
  · exact ⟨h.1, h.2.1, rfl⟩
  · exact h

/-! ## One task over the file of another -/

/-- The task renames its file onto one that holds data. -/
def TaskOver (fs : FileSystem) (t : WriterTask) : Prop :=
  match t.phase with
  | .spawned => fs.holds t.completeName = true
  | .writing f _ => fs.holds t.completeName = true ∧ fs.dir.lookup t.fName = some f
  | .flushed => fs.holds t.completeName = true ∧ ∃ f, fs.dir.lookup t.fName = some f
  | .ended => fs.overwrote = true
  | .failed => False

/-- A task goes on to its rename over the other file. -/
theorem TaskOver.step {fs fs' : FileSystem} {t t' : WriterTask} (hfs : fs.Ok) (h : TaskOver fs t)
    (hne : t.fName ≠ t.completeName) (ht : t.step fs = some (fs', t')) :
    fs'.Ok ∧ TaskOver fs' t' := by
  unfold TaskOver at h
  obtain ⟨f, hp, hcreate, rfl⟩ | ⟨f, pos, d, rx, hp, hrx, rfl, rfl⟩ |
    ⟨f, pos, hp, hrx, hdrop, rfl, rfl⟩ | ⟨hp, hrename, rfl⟩ | ⟨hp, hrename, rfl, rfl⟩ :=
      WriterTask.step_cases ht
  · simp only [hp] at h
    obtain ⟨fs₁, f₁, hcreate₁, hok, hlookup, -, hsame, -⟩ := FileSystem.create_spec hfs t.fName
    obtain ⟨rfl, rfl⟩ := Prod.mk.inj (hcreate.symm.trans hcreate₁)
    exact ⟨hok, (hsame t.completeName hne.symm).holds_eq.trans h, hlookup⟩
  · simp only [hp] at h
    obtain ⟨hholds, hlookup⟩ := h
    obtain ⟨hok, -, hsame, -⟩ := FileSystem.writeAt_spec hfs hlookup pos d
    exact ⟨hok, (hsame t.completeName hne.symm).holds_eq.trans hholds, hlookup⟩
  · simp only [hp] at h
    obtain ⟨hholds, hlookup⟩ := h
    exact ⟨hfs, hholds, f, hlookup⟩
  · simp only [hp] at h
    obtain ⟨hholds, f, hlookup⟩ := h
    obtain ⟨fs₁, hrename₁, hok, -, -, -, -, hover⟩ := FileSystem.rename_spec hfs hne hlookup
    obtain rfl := Option.some.inj (hrename.symm.trans hrename₁)
    refine ⟨hok, ?_⟩
    show fs'.overwrote = true
    rw [hover, hholds, Bool.or_true]
  · simp only [hp] at h
    obtain ⟨-, f, hlookup⟩ := h
    obtain ⟨fs₁, hrename₁, -⟩ := FileSystem.rename_spec hfs hne hlookup
    cases hrename.symm.trans hrename₁

/-! ## A task comes to its end -/

namespace WriterTask

/-- The steps that are left to a task without a writer. -/
def remaining (t : WriterTask) : ℕ :=
  match t.phase with
  | .spawned => t.rx.length + 3
  | .writing _ _ => t.rx.length + 2
  | .flushed => 1
  | .ended => 0
  | .failed => 0

/-- A task with nothing left has ended or failed. -/
theorem phase_of_remaining {t : WriterTask} (h : t.remaining = 0) :
    t.phase = .ended ∨ t.phase = .failed := by
  unfold remaining at h
  split at h
  · omega
  · omega
  · omega
  · next hp => exact .inl hp
  · next hp => exact .inr hp

/-- A task whose sender is dropped goes on to its end. -/
theorem exists_step {t : WriterTask} (fs : FileSystem) (hdrop : t.txDropped = true)
    (h : t.remaining ≠ 0) :
    ∃ fs' t', t.step fs = some (fs', t') ∧ t'.remaining < t.remaining := by
  cases hp : t.phase with
  | spawned => exact ⟨_, _, by simp only [step, hp]; rfl, by simp [remaining, hp]⟩
  | writing f pos =>
    cases hrx : t.rx with
    | cons d rx => exact ⟨_, _, by simp only [step, hp, hrx]; rfl, by simp [remaining, hp, hrx]⟩
    | nil => exact ⟨_, _, by simp only [step, hp, hrx, hdrop]; rfl, by simp [remaining, hp]⟩
  | flushed =>
    cases hr : fs.rename t.fName t.completeName with
    | some fs' => exact ⟨_, _, by simp only [step, hp, hr]; rfl, by simp [remaining, hp]⟩
    | none => exact ⟨_, _, by simp only [step, hp, hr]; rfl, by simp [remaining, hp]⟩
  | ended => simp [remaining, hp] at h
  | failed => simp [remaining, hp] at h

/-- What was overwritten stays so. -/
theorem overwrote_of_step {fs fs' : FileSystem} {t t' : WriterTask}
    (h : t.step fs = some (fs', t')) (hover : fs.overwrote = true) : fs'.overwrote = true := by
  unfold step at h
  cases hp : t.phase with
  | spawned =>
    simp only [hp] at h
    rw [← (Prod.mk.inj (Option.some.inj h)).1]
    unfold FileSystem.create
    split
    · simp [hover]
    · exact hover
  | writing f pos =>
    simp only [hp] at h
    split at h
    · rw [← (Prod.mk.inj (Option.some.inj h)).1]
      exact hover
    · split at h
      · rw [← (Prod.mk.inj (Option.some.inj h)).1]
        exact hover
      · cases h
  | flushed =>
    simp only [hp] at h
    unfold FileSystem.rename at h
    split at h
    · next fs₁ hr =>
      rw [← (Prod.mk.inj (Option.some.inj h)).1]
      split at hr
      · rw [← Option.some.inj hr]
        simp [hover]
      · cases hr
    · rw [← (Prod.mk.inj (Option.some.inj h)).1]
      exact hover
  | ended => simp [hp] at h
  | failed => simp [hp] at h

end WriterTask

end PtkGenerator
