import Ndp.ServerStore

/-! The range check of reads and writes in a release build. It compares the wrapped sum of an
offset and a length with the page's length, so a range that goes once round the address space
and ends below the page's end is taken for one inside it. -/
namespace Ndp

open ByteMemory

/-- A range that ends behind the page, but whose end is taken for a place in it. -/
def SlipsThrough (page : MappedBufMut) (offset len : Nat) : Prop :=
  page.len.toNat < offset + len ∧ (offset + len) % 2 ^ 64 ≤ page.len.toNat

instance (page : MappedBufMut) (offset len : Nat) : Decidable (SlipsThrough page offset len) :=
  inferInstanceAs (Decidable (_ ∧ _))

def Handled.RefusesRange (handled : Handled) : Prop :=
  ∃ message, handled.replies = [.err ⟨.argumentOutOfRange, message⟩]

/-- What the check is for, on a read: what is let through is a range of the page. -/
structure ReadChecked (page : MappedBufMut) (read : ReadRequest) (handled : Handled) : Prop where
  exact : handled.RefusesRange ↔ page.len.toNat < read.offset.toNat + read.len.toNat
  sized : ¬handled.RefusesRange → read.len.toNat ≤ page.len.toNat
  found : ∀ e, handled.result ≠ .err (.io e)

/-- What the check is for, on a write: what is acknowledged has been stored. -/
structure WriteChecked (page : MappedBufMut) (write : WriteRequestOwned) (handled : Handled) : Prop where
  exact : handled.RefusesRange ↔ page.len.toNat < write.offset.toNat + write.buf.length
  stored : handled.replies = [.okWithHandle ⟨write.handle⟩] →
    write.offset.toNat + write.buf.length ≤ page.len.toNat ∧
      slice (page.asSlice handled.ctx.memory) write.offset.toNat write.buf.length = write.buf

section Release

variable {machine : Machine} {ctx : ServerContext} {page : MappedBufMut}

theorem handleRead_release (release : machine.overflowChecks = false) {read : ReadRequest}
    (live : ctx.pages read.handle = some page) :
    ctx.handleRead machine read =
      if page.len.toNat < (read.offset.toNat + read.len.toNat) % 2 ^ 64 then ctx.replyOutOfRange
      else if isizeMax < read.len.toNat then ctx.panicked .capacityOverflow
      else if read.len.toNat ≤ page.len.toNat - read.offset.toNat then
        ctx.reply (.okWithBuffer ⟨read.handle, read.offset,
          slice (page.asSlice ctx.memory) read.offset.toNat read.len.toNat⟩)
      else ctx.failed (.io .unexpectedEof) := by
  rw [ServerContext.handleRead_live live,if_neg (by simp [release])]

theorem handleWrite_release (release : machine.overflowChecks = false) {write : WriteRequestOwned}
    (live : ctx.pages write.handle = some page) :
    ctx.handleWrite machine write =
      if page.len.toNat < (write.offset.toNat + write.buf.length) % 2 ^ 64 then ctx.replyOutOfRange
      else { ctx with memory := ((page.asCursor.setPosition write.offset).write ctx.memory write.buf).1 }.reply
        (.okWithHandle ⟨write.handle⟩) := by
  rw [ServerContext.handleWrite_live live,if_neg (by simp [release])]

theorem refuses_iff {p : Prop} [Decidable p] {inside : Handled} (accepts : ¬inside.RefusesRange) :
    (if p then ctx.replyOutOfRange else inside).RefusesRange ↔ p := by
  by_cases outside : p
  · rw [if_pos outside]
    exact ⟨fun _ => outside,fun _ => ⟨_,rfl⟩⟩
  · rw [if_neg outside]
    exact ⟨fun refuses => absurd refuses accepts,fun holds => absurd holds outside⟩

theorem read_refused_iff (release : machine.overflowChecks = false) {read : ReadRequest}
    (live : ctx.pages read.handle = some page) :
    (ctx.handleRead machine read).RefusesRange ↔
      page.len.toNat < (read.offset.toNat + read.len.toNat) % 2 ^ 64 := by
  rw [handleRead_release release live]
  apply refuses_iff
  rintro ⟨message,replied⟩
  split at replied
  · contradiction
  · split at replied
    · simp [ServerContext.reply] at replied
    · contradiction

theorem write_refused_iff (release : machine.overflowChecks = false) {write : WriteRequestOwned}
    (live : ctx.pages write.handle = some page) :
    (ctx.handleWrite machine write).RefusesRange ↔
      page.len.toNat < (write.offset.toNat + write.buf.length) % 2 ^ 64 := by
  rw [handleWrite_release release live]
  apply refuses_iff
  rintro ⟨message,replied⟩
  simp [ServerContext.reply] at replied

/-- Comparing the wrapped sum is comparing the sum, unless the range slips through. -/
theorem wrapped_exact_iff (offset len : Nat) :
    (page.len.toNat < (offset + len) % 2 ^ 64 ↔ page.len.toNat < offset + len) ↔ ¬SlipsThrough page offset len := by
  have := page.len.toNat_lt
  unfold SlipsThrough
  omega

theorem read_checked_iff (release : machine.overflowChecks = false) {read : ReadRequest}
    (live : ctx.pages read.handle = some page) :
    ReadChecked page read (ctx.handleRead machine read) ↔ ¬SlipsThrough page read.offset.toNat read.len.toNat := by
  have refusal := read_refused_iff release live
  rw [← wrapped_exact_iff,← refusal]
  refine ⟨ReadChecked.exact,fun exact => ⟨exact,fun accepted => ?_,fun e failed => ?_⟩⟩
  · rw [exact] at accepted
    omega
  · rw [refusal] at exact
    rw [handleRead_release release live] at failed
    split at failed
    · contradiction
    · next inside =>
      rw [exact] at inside
      rw [if_pos (show read.len.toNat ≤ page.len.toNat - read.offset.toNat by omega)] at failed
      split at failed <;> contradiction

theorem write_checked_iff (release : machine.overflowChecks = false) {write : WriteRequestOwned}
    (live : ctx.pages write.handle = some page) :
    WriteChecked page write (ctx.handleWrite machine write) ↔
      ¬SlipsThrough page write.offset.toNat write.buf.length := by
  have refusal := write_refused_iff release live
  rw [← wrapped_exact_iff,← refusal]
  refine ⟨WriteChecked.exact,fun exact => ⟨exact,fun acknowledged => ?_⟩⟩
  rw [refusal] at exact
  rw [handleWrite_release release live] at acknowledged ⊢
  split at acknowledged
  · simp [ServerContext.replyOutOfRange,ServerContext.reply] at acknowledged
  · next inside =>
    rw [if_neg inside]
    rw [exact] at inside
    have own := write_own ctx.memory page write.offset write.buf
    refine ⟨by omega,?_⟩
    change slice (page.asSlice ((page.asCursor.setPosition write.offset).write ctx.memory write.buf).1) _ _ = _
    rw [own]
    exact slice_splice_same (by rw [MappedBufMut.asSlice_length]; omega)

end Release

/-- On any page, reads and writes are checked as meant exactly if their range does not slip
through. -/
theorem range_check_exact_iff (machine : Machine) (release : machine.overflowChecks = false) (ctx : ServerContext)
    (page : MappedBufMut) :
    (∀ read : ReadRequest, ctx.pages read.handle = some page →
      (ReadChecked page read (ctx.handleRead machine read) ↔
        ¬SlipsThrough page read.offset.toNat read.len.toNat)) ∧
    (∀ write : WriteRequestOwned, ctx.pages write.handle = some page →
      (WriteChecked page write (ctx.handleWrite machine write) ↔
        ¬SlipsThrough page write.offset.toNat write.buf.length)) :=
  ⟨fun _ live => read_checked_iff release live,fun _ live => write_checked_iff release live⟩

/-- A server with one page of four bytes. -/
def onePage : ServerContext := ((Server.start 128 fun _ => 0).after .small [⟨0, .alloc ⟨4⟩, .mapsAt 100 0⟩]).ctx

theorem range_check_exact_page :
    onePage.pages 0 = some ⟨100, 4, 4⟩ ∧
    ReadChecked ⟨100, 4, 4⟩ ⟨0, 0xffffffffffffffff, 6⟩ (onePage.handleRead .small ⟨0, 0xffffffffffffffff, 6⟩) ∧
    WriteChecked ⟨100, 4, 4⟩ ⟨0, 1, [7, 8, 9]⟩ (onePage.handleWrite .small ⟨0, 1, [7, 8, 9]⟩) := by
  have checks := range_check_exact_iff .small rfl onePage ⟨100, 4, 4⟩
  exact ⟨rfl,(checks.1 _ rfl).mpr (by decide),(checks.2 _ rfl).mpr (by decide)⟩

/-- Offsets at the end of the address space: a write is acknowledged and nothing is stored, a
read of one byte fails, and one of nearly all there are is let through. -/
theorem ranges_slip_through :
    (onePage.handleWrite .small ⟨0, 0xffffffffffffffff, [7]⟩).replies = [.okWithHandle ⟨0⟩] ∧
    MappedBufMut.asSlice (onePage.handleWrite .small ⟨0, 0xffffffffffffffff, [7]⟩).ctx.memory ⟨100, 4, 4⟩ =
      [0, 0, 0, 0] ∧
    (onePage.handleRead .small ⟨0, 0xffffffffffffffff, 1⟩).result = .err (.io .unexpectedEof) ∧
    (onePage.handleRead .small ⟨0, 2, 0xfffffffffffffffe⟩).result = .panicked .capacityOverflow := by
  decide

end Ndp
