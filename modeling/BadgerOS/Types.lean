import Mathlib.Tactic.TypeStar

/-!
# Types that the parts of the kernel share

`Errno` of `error.rs`, with the errors that the modelled functions return, and the types
of inodes and of unlinking of the filesystem layer.
-/

namespace BadgerOS

inductive Errno where
  | eaddrinuse | eagain | ebadf | ebusy | eexist | efault | einval | eintr | eio
  | eisdir | emlink | enametoolong | enodev | enoent | enomem | enospc | enotdir
  | enotempty | enxio | eperm | epipe | erofs | esrch | etimedout | etxtbsy
  deriving DecidableEq, Repr

inductive InodeType where
  | unknown | fifo | charDev | directory | blockDev | regular | symlink | unixSocket
  deriving DecidableEq, Repr

inductive UnlinkMode where
  | fileOnly | dirOnly | any
  deriving DecidableEq, Repr

end BadgerOS
